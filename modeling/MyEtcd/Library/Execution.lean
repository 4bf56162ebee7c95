import Mathlib.Data.List.Basic
import Mathlib.Logic.Function.Iterate

/-! Runs of a machine given by a partial step function over named actions.
A run may be restricted to steps that meet a side condition on the state before the step. -/
namespace MyEtcd.Library
variable {σ α : Type}

/-- `Run step ok s t`: some sequence of actions leads from `s` to `t`, and every one of them
meets `ok` in the state it is taken from. -/
inductive Run (step : σ → α → Option σ) (ok : σ → α → Prop) (s : σ) : σ → Prop where
  | start : Run step ok s s
  | next {t u : σ} {a : α} (before : Run step ok s t) (meets : ok t a)
      (taken : step t a = some u) : Run step ok s u

namespace Run
variable {step : σ → α → Option σ} {ok : σ → α → Prop} {s t u : σ}

theorem trans (h : Run step ok s t) (h' : Run step ok t u) : Run step ok s u := by
  induction h' with
  | start => exact h
  | next _ meets taken ih => exact ih.next meets taken

theorem mono {ok' : σ → α → Prop} (hok : ∀ s a, ok s a → ok' s a) (h : Run step ok s t) :
    Run step ok' s t := by
  induction h with
  | start => exact .start
  | next _ meets taken ih => exact ih.next (hok _ _ meets) taken

/-- What one admissible step preserves, a whole run preserves. -/
theorem invariant {P : σ → Prop}
    (hstep : ∀ {s a s'}, P s → ok s a → step s a = some s' → P s')
    (h : Run step ok s t) (hs : P s) : P t := by
  induction h with
  | start => exact hs
  | next _ meets taken ih => exact hstep ih meets taken

/-- A measure that can be lowered until the goal is reached leads to the goal. -/
theorem reaches (measure : σ → Nat) {Inv Goal : σ → Prop}
    (hlower : ∀ s, Inv s → ¬ Goal s →
      ∃ t, Run step ok s t ∧ Inv t ∧ measure t < measure s)
    (h : Inv s) : ∃ t, Run step ok s t ∧ Inv t ∧ Goal t := by
  induction hn : measure s using Nat.strongRecOn generalizing s with
  | ind n ih =>
    by_cases hgoal : Goal s
    · exact ⟨s, .start, h, hgoal⟩
    · obtain ⟨t, hrun, hinv, hlt⟩ := hlower s h hgoal
      obtain ⟨u, hrun', hu⟩ := ih _ (hn ▸ hlt) hinv rfl
      exact ⟨u, hrun.trans hrun', hu⟩

end Run

/-- The states a run has gone through before `t`, newest first. -/
inductive Trace (step : σ → α → Option σ) (s : σ) : List σ → σ → Prop where
  | start : Trace step s [] s
  | next {older : List σ} {t u : σ} {a : α} (before : Trace step s older t)
      (taken : step t a = some u) : Trace step s (t :: older) u

theorem Trace.run {step : σ → α → Option σ} {older : List σ} {s t : σ}
    (h : Trace step s older t) : Run step (fun _ _ => True) s t := by
  induction h with
  | start => exact .start
  | next _ taken ih => exact ih.next trivial taken

theorem Run.trace {step : σ → α → Option σ} {ok : σ → α → Prop} {s t : σ} (h : Run step ok s t) :
    ∃ older, Trace step s older t := by
  induction h with
  | start => exact ⟨[], .start⟩
  | next _ _ taken ih =>
    obtain ⟨older, htrace⟩ := ih
    exact ⟨_, htrace.next taken⟩

/-- Take the listed actions one after the other, each only where it is admissible. -/
def execute (step : σ → α → Option σ) (ok : σ → α → Prop) [∀ s a, Decidable (ok s a)] (s : σ) :
    List α → Option σ
  | [] => some s
  | a :: rest => if ok s a then (step s a).bind (execute step ok · rest) else none

section
variable {step : σ → α → Option σ} {ok : σ → α → Prop} [∀ s a, Decidable (ok s a)] {s : σ}
  {actions : List α}

/-- A list of actions that can all be taken is a run. -/
theorem run_of_execute {t : σ} (h : execute step ok s actions = some t) : Run step ok s t := by
  induction actions generalizing s with
  | nil => exact Option.some.inj h ▸ .start
  | cons a rest ih =>
    obtain ⟨hok, h⟩ := Option.ite_none_right_eq_some.mp h
    obtain ⟨u, hu, hrest⟩ := Option.bind_eq_some_iff.mp h
    exact (Run.start.next hok hu).trans (ih hrest)

variable (step ok s actions) in
/-- What the listed actions lead to is reachable. -/
theorem reachable_of_execute {P : σ → Prop} [DecidablePred P]
    (h : (execute step ok s actions).any (fun t => P t) = true) : ∃ t, Run step ok s t ∧ P t := by
  cases ht : execute step ok s actions with
  | none => simp [ht] at h
  | some t => exact ⟨t, run_of_execute ht, by simpa [ht] using h⟩

variable (step ok s actions) in
/-- What the listed actions lead to is reachable, and so is what further ones lead to from there. -/
theorem reachable_twice_of_execute (later : List α) {P : σ → σ → Prop} [∀ t u, Decidable (P t u)]
    (h : (execute step ok s actions).any
      (fun t => (execute step ok t later).any (fun u => P t u)) = true) :
    ∃ t u, Run step ok s t ∧ Run step ok t u ∧ P t u := by
  obtain ⟨t, ht, hlater⟩ := (Option.any_eq_true _ _).mp h
  obtain ⟨u, hu, hP⟩ := (Option.any_eq_true _ _).mp hlater
  exact ⟨t, u, run_of_execute ht, run_of_execute hu, of_decide_eq_true hP⟩

end

section
variable {f : σ → σ} {measure : σ → Nat} {Inv Stop : σ → Prop}

/-- A step that lowers a positive measure unless it stops has to stop before the measure is used up,
and lowers it every time until then. -/
theorem exists_iterate_stop (hpos : ∀ s, Inv s → 0 < measure s)
    (hstep : ∀ s, Inv s → ¬ Stop s → Inv (f s) ∧ measure (f s) < measure s) {s : σ} (h : Inv s) :
    ∃ k < measure s,
      (∀ j < k, ¬ Stop (f^[j] s) ∧ measure (f^[j + 1] s) < measure (f^[j] s)) ∧
      Stop (f^[k] s) ∧ Inv (f^[k] s) := by
  induction hn : measure s using Nat.strongRecOn generalizing s with
  | ind n ih =>
    by_cases hstop : Stop s
    · exact ⟨0, hn ▸ hpos s h, fun j hj => absurd hj j.not_lt_zero, hstop, h⟩
    obtain ⟨hinv, hlt⟩ := hstep s h hstop
    obtain ⟨k, hk, hbefore, hstops, hinvk⟩ := ih _ (hn ▸ hlt) hinv rfl
    refine ⟨k + 1, by omega, fun j hj => ?_, hstops, hinvk⟩
    cases j with
    | zero => exact ⟨hstop, hlt⟩
    | succ j => exact hbefore j (Nat.lt_of_succ_lt_succ hj)

end

end MyEtcd.Library
