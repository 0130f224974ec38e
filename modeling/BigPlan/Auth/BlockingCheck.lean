import BigPlan.Auth.TokenCheck

/-!
# The check that waits

`LocalSecurityChecker.checking` waits for the check of the token on a flag and then reads the
card. The callback on the event loop sets the flag first and the card after it. Both threads
advance by one read or write of the two variables at a time.
-/
namespace BigPlan.Auth

open Lib.Runs

/-- How far the callback has come. -/
inductive Callback where
  | start
  | flagged
  | finished
  deriving DecidableEq, Repr

/-- How far the caller has come. -/
inductive CallingThread where
  | waiting
  | awake
  | returned (accessCard : Option AccessCard)
  deriving DecidableEq, Repr

structure BlockingCheck where
  wait : Bool
  accessCard : Option AccessCard
  callback : Callback
  caller : CallingThread
  deriving DecidableEq, Repr

/-- The thread that takes the next step. -/
inductive Turn where
  | eventLoop
  | caller
  deriving DecidableEq, Repr

/-- The card of a successful check, and `null` otherwise. -/
def Completion.card : Completion → Option AccessCard
  | .complete accessCard => accessCard
  | .fail => none

namespace BlockingCheck

def start : BlockingCheck where
  wait := false
  accessCard := none
  callback := .start
  caller := .waiting

variable (outcome : Completion)

/-- The callback of a failed check only logs after it has set the flag. -/
def stepCallback (s : BlockingCheck) : BlockingCheck :=
  match s.callback with
  | .start => { s with wait := true, callback := .flagged }
  | .flagged =>
    match outcome with
    | .complete card => { s with accessCard := card, callback := .finished }
    | .fail => { s with callback := .finished }
  | .finished => s

/-- One look at the flag, or the final read of the card. -/
def stepCaller (s : BlockingCheck) : BlockingCheck :=
  match s.caller with
  | .waiting => if s.wait then { s with caller := .awake } else s
  | .awake => { s with caller := .returned s.accessCard }
  | .returned _ => s

def step (s : BlockingCheck) : Turn → BlockingCheck
  | .eventLoop => s.stepCallback outcome
  | .caller => s.stepCaller

/-- What the caller has returned, if it has, is the card of the check. -/
def Returns (s : BlockingCheck) : Prop :=
  ∀ accessCard, s.caller = .returned accessCard → accessCard = outcome.card

/-- The final read does not fall between the two writes of the callback, unless there is no card
to be missed. -/
def ReadsWritten (s : BlockingCheck) (turn : Turn) : Prop :=
  turn = .caller → s.caller = .awake → s.callback = .flagged → outcome.card = none

instance (s : BlockingCheck) (turn : Turn) : Decidable (s.ReadsWritten outcome turn) := by
  unfold ReadsWritten
  infer_instance

/-- The flag and the card are what the callback has written so far, and the caller has not passed
the flag before. -/
structure Inv (s : BlockingCheck) : Prop where
  wait : s.wait = true ↔ s.callback ≠ .start
  accessCard : s.accessCard = if s.callback = .finished then outcome.card else none
  flagged : s.caller ≠ .waiting → s.wait = true
  returns : s.Returns outcome

variable {outcome} {s : BlockingCheck}

theorem inv_start : Inv outcome start where
  wait := by simp [start]
  accessCard := by simp [start]
  flagged h := absurd rfl h
  returns accessCard h := by cases h

theorem inv_stepCallback (h : s.Inv outcome) : (s.stepCallback outcome).Inv outcome := by
  unfold stepCallback
  cases hcallback : s.callback with
  | start =>
    refine ⟨by simp, ?_, fun _ => rfl, h.returns⟩
    rw [h.accessCard, hcallback]
    simp
  | flagged =>
    have hwait : s.wait = true := h.wait.mpr (by simp [hcallback])
    cases outcome with
    | complete card => exact ⟨by simp [hwait], by simp [Completion.card], fun _ => hwait, h.returns⟩
    | fail =>
      refine ⟨by simp [hwait], ?_, fun _ => hwait, h.returns⟩
      rw [h.accessCard, hcallback]
      simp [Completion.card]
  | finished => exact h

/-- The caller that reads the card finds it written, or finds `null` for a card that is to
come. -/
theorem accessCard_of_awake (h : s.Inv outcome) (hawake : s.caller = .awake) :
    s.accessCard = outcome.card ↔ s.ReadsWritten outcome .caller := by
  have hwait : s.callback ≠ .start := h.wait.mp (h.flagged (by simp [hawake]))
  rw [h.accessCard]
  cases hcallback : s.callback with
  | start => exact absurd hcallback hwait
  | flagged => simp [ReadsWritten, hawake, hcallback, eq_comm]
  | finished => simp [ReadsWritten, hcallback]

theorem inv_stepCaller (h : s.Inv outcome) (hread : s.ReadsWritten outcome .caller) :
    s.stepCaller.Inv outcome := by
  unfold stepCaller
  cases hcaller : s.caller with
  | waiting =>
    by_cases hwait : s.wait = true
    · simp only [if_pos hwait]
      exact ⟨h.wait, h.accessCard, fun _ => hwait, fun accessCard hreturned => by cases hreturned⟩
    · simp only [if_neg hwait]
      exact h
  | awake =>
    refine ⟨h.wait, h.accessCard, fun _ => h.flagged (by simp [hcaller]), ?_⟩
    intro accessCard hreturned
    cases hreturned
    exact (accessCard_of_awake h hcaller).mpr hread
  | returned accessCard => exact h

/-- Whatever the threads do in which order, the caller returns the card of the check exactly if it
never reads the card between the two writes. -/
theorem returns_iff (outcome : Completion) (turns : List Turn) :
    Throughout (step outcome) (Returns outcome) start turns ↔
      Along (step outcome) (ReadsWritten outcome) start turns := by
  refine throughout_iff_along (fun _ s => s.Inv outcome) ?_ ?_ ?_ inv_start
  · intro s _ h
    exact h.returns
  · intro s turn _ h hread
    cases turn with
    | eventLoop => exact inv_stepCallback h
    | caller => exact inv_stepCaller h hread
  · intro s turn _ h hmissed hreturns
    cases turn with
    | eventLoop => exact hmissed fun hturn => by cases hturn
    | caller =>
      have hawake : s.caller = .awake := by
        by_contra hne
        exact hmissed fun _ hawake => absurd hawake hne
      refine hmissed ((accessCard_of_awake h hawake).mp ?_)
      refine hreturns s.accessCard ?_
      simp only [step, stepCaller, hawake]

/-- A caller that is woken returns with its second step from then on. -/
theorem exists_returned (hwait : s.wait = true) :
    ∃ accessCard, s.stepCaller.stepCaller.caller = .returned accessCard := by
  cases hcaller : s.caller with
  | waiting => exact ⟨s.accessCard, by simp [stepCaller, hcaller, hwait]⟩
  | awake => exact ⟨s.accessCard, by simp [stepCaller, hcaller]⟩
  | returned accessCard => exact ⟨accessCard, by simp [stepCaller, hcaller]⟩

/-- A callback in one go returns what the check was completed with. -/
theorem run_callback_first (check : TokenCheck) {rest : List Completion}
    (hcompletions : check.completions = outcome :: rest) :
    (run (step outcome) start [.eventLoop, .eventLoop, .caller, .caller]).caller =
      .returned outcome.card ∧ check.returned = some outcome.card := by
  rw [TokenCheck.returned, hcompletions]
  cases outcome <;> exact ⟨rfl, rfl⟩

/-- The caller wakes up on the flag and reads the card before it is written. -/
theorem not_returns : ¬ ∀ (outcome : Completion) (turns : List Turn),
    Throughout (step outcome) (Returns outcome) start turns := by
  intro h
  have hlast := (h (.complete (some { userId := some 7 })) [.eventLoop, .caller, .caller]).last
  exact absurd (hlast none (by decide)) (by decide)

end BlockingCheck

end BigPlan.Auth
