import Mathlib.Tactic

/-!
# Runs of a system whose steps can fail

A step takes a state and an action to another state or fails, and a failed step ends the run. The
actions say who moves and with what, so a statement about all lists of actions is about all
interleavings.

## Main results

* `run_induct` — what every step keeps holds wherever a run leads
* `run_eq_error_iff` — a run that fails does so in one of its steps
-/

namespace Runs

variable {S A E : Type*} {step : S → A → Except E S} {s s' : S} {acts : List A}

/-- Take the actions in order, until one fails. -/
def run (step : S → A → Except E S) : List A → S → Except E S
  | [], s => .ok s
  | act :: acts, s =>
    match step s act with
    | .error e => .error e
    | .ok s' => run step acts s'

theorem run_cons_ok {act : A} (h : step s act = .ok s') :
    run step (act :: acts) s = run step acts s' := by
  simp only [run, h]

theorem run_cons_error {act : A} {e : E} (h : step s act = .error e) :
    run step (act :: acts) s = .error e := by
  simp only [run, h]

theorem of_map_ok {α β : Type*} {x : Except E α} {f : α → β} {b : β} (h : x.map f = .ok b) :
    ∃ a, x = .ok a ∧ b = f a := by
  cases x with
  | error e => cases h
  | ok a => exact ⟨a, rfl, (Except.ok.inj h).symm⟩

/-- **What every step keeps holds wherever a run leads.** -/
theorem run_induct {I : S → Prop} (hstep : ∀ s act s', I s → step s act = .ok s' → I s')
    (hs : I s) (h : run step acts s = .ok s') : I s' := by
  induction acts generalizing s with
  | nil =>
    cases h
    exact hs
  | cons act acts ih =>
    cases ha : step s act with
    | error e =>
      rw [run_cons_error ha] at h
      cases h
    | ok t =>
      rw [run_cons_ok ha] at h
      exact ih (hstep s act t hs ha) h

/-- **A run that fails does so in one of its steps.** -/
theorem run_eq_error_iff {e : E} :
    run step acts s = .error e ↔ ∃ acts₁ act acts₂ t, acts = acts₁ ++ act :: acts₂ ∧
      run step acts₁ s = .ok t ∧ step t act = .error e := by
  induction acts generalizing s with
  | nil =>
    refine ⟨(fun h => by cases h), ?_⟩
    rintro ⟨acts₁, act, acts₂, t, h, -⟩
    simp at h
  | cons a acts ih =>
    refine ⟨fun h => ?_, ?_⟩
    · cases ha : step s a with
      | error e' =>
        rw [run_cons_error ha] at h
        exact ⟨[], a, acts, s, rfl, rfl, ha.trans h⟩
      | ok t =>
        rw [run_cons_ok ha] at h
        obtain ⟨acts₁, act, acts₂, t', rfl, hrun, hact⟩ := ih.mp h
        exact ⟨a :: acts₁, act, acts₂, t', rfl, (run_cons_ok ha).trans hrun, hact⟩
    · rintro ⟨acts₁, act, acts₂, t, hacts, hrun, hact⟩
      cases acts₁ with
      | nil =>
        cases hrun
        cases hacts
        exact run_cons_error hact
      | cons b acts₁ =>
        cases hacts
        cases ha : step s a with
        | error e' =>
          rw [run_cons_error ha] at hrun
          cases hrun
        | ok t' =>
          rw [run_cons_ok ha] at hrun ⊢
          exact ih.mpr ⟨acts₁, act, acts₂, t, rfl, hrun, hact⟩

/-- Does the run come to its end, in a state that passes the test? -/
def endsIn (test : S → Bool) : Except E S → Bool
  | .ok s => test s
  | .error _ => false

theorem exists_of_endsIn (test : S → Bool) (r : Except E S) (h : endsIn test r = true) :
    ∃ s, r = .ok s ∧ test s = true := by
  cases r with
  | ok s => exact ⟨s, rfl, h⟩
  | error e => cases h

end Runs
