import Mathlib.Data.List.Basic

/-!
# Finite runs of a deterministic labelled system

A run is the fold of a step function over a list of labels. `Throughout` states
a property of every state the run visits, `Along` a condition on every step it
takes. The invariant rules below trade one for the other.
-/
namespace BigPlan.Lib.Runs

variable {σ α : Type*} (step : σ → α → σ)

def run (s : σ) (as : List α) : σ := as.foldl step s

@[simp] theorem run_cons (s : σ) (a : α) (as : List α) :
    run step s (a :: as) = run step (step s a) as := rfl

/-- The property holds before the first step and after each one. -/
def Throughout (P : σ → Prop) : σ → List α → Prop
  | s, [] => P s
  | s, a :: as => P s ∧ Throughout P (step s a) as

/-- Every step of the run is taken in a state where the guard allows it. -/
def Along (G : σ → α → Prop) : σ → List α → Prop
  | _, [] => True
  | s, a :: as => G s a ∧ Along G (step s a) as

instance decidableAlong (G : σ → α → Prop) [∀ s a, Decidable (G s a)] :
    (s : σ) → (as : List α) → Decidable (Along step G s as)
  | _, [] => isTrue trivial
  | s, a :: as =>
    have := decidableAlong G (step s a) as
    inferInstanceAs (Decidable (G s a ∧ Along step G (step s a) as))

variable {step} {P Q : σ → Prop} {G : σ → α → Prop} {s : σ} {as : List α}

theorem Throughout.first (h : Throughout step P s as) : P s := by
  cases as with
  | nil => exact h
  | cons a as => exact h.1

theorem Throughout.last (h : Throughout step P s as) : P (run step s as) := by
  induction as generalizing s with
  | nil => exact h
  | cons a as ih => exact ih h.2

theorem Throughout.mono (hPQ : ∀ s, P s → Q s) (h : Throughout step P s as) :
    Throughout step Q s as := by
  induction as generalizing s with
  | nil => exact hPQ s h
  | cons a as ih => exact ⟨hPQ s h.1, ih h.2⟩

theorem along_of_forall (h : ∀ s a, G s a) (s : σ) (as : List α) : Along step G s as := by
  induction as generalizing s with
  | nil => trivial
  | cons a as ih => exact ⟨h s a, ih (step s a)⟩

/-- What an invariant implies for each step holds along every run. -/
theorem along_of_invariant (hG : ∀ s a, P s → G s a) (hstep : ∀ s a, P s → P (step s a))
    (h0 : P s) (as : List α) : Along step G s as := by
  induction as generalizing s with
  | nil => trivial
  | cons a as ih => exact ⟨hG s a h0, ih (hstep s a h0)⟩

theorem Along.mono {G G' : σ → α → Prop} (hG : ∀ s a, G s a → G' s a) (h : Along step G s as) :
    Along step G' s as := by
  induction as generalizing s with
  | nil => trivial
  | cons a as ih => exact ⟨hG s a h.1, ih h.2⟩

theorem along_congr {G G' : σ → α → Prop} (h : ∀ s a, G s a ↔ G' s a) (s : σ) (as : List α) :
    Along step G s as ↔ Along step G' s as := by
  induction as generalizing s with
  | nil => exact Iff.rfl
  | cons a as ih => exact and_congr (h s a) (ih (step s a))

theorem along_append (s : σ) (as bs : List α) :
    Along step G s (as ++ bs) ↔ Along step G s as ∧ Along step G (run step s as) bs := by
  induction as generalizing s with
  | nil => exact (iff_of_eq (true_and _)).symm
  | cons a as ih =>
    rw [List.cons_append, Along, Along, ih, run_cons, and_assoc]

/-- An invariant kept by the allowed steps holds throughout a run of allowed steps. -/
theorem throughout_of_along (hstep : ∀ s a, P s → G s a → P (step s a))
    (h0 : P s) (h : Along step G s as) : Throughout step P s as := by
  induction as generalizing s with
  | nil => exact h0
  | cons a as ih => exact ⟨h0, ih (hstep s a h0 h.1) h.2⟩

/-- An invariant kept by every step holds throughout every run. -/
theorem throughout_of_step (hstep : ∀ s a, P s → P (step s a)) (h0 : P s) (as : List α) :
    Throughout step P s as := by
  induction as generalizing s with
  | nil => exact h0
  | cons a as ih => exact ⟨h0, ih (hstep s a h0)⟩

theorem invariant_run (hstep : ∀ s a, P s → P (step s a)) (h0 : P s) (as : List α) :
    P (run step s as) :=
  (throughout_of_step hstep h0 as).last

/-! ## Reaching -/

variable (step) in
/-- Some run leads from the first state to the second one. -/
def Reaches (s s' : σ) : Prop := ∃ as, run step s as = s'

theorem Reaches.refl (s : σ) : Reaches step s s := ⟨[], rfl⟩

theorem Reaches.single (s : σ) (a : α) : Reaches step s (step s a) := ⟨[a], rfl⟩

theorem Reaches.trans {s s' s'' : σ} (h : Reaches step s s') (h' : Reaches step s' s'') :
    Reaches step s s'' := by
  obtain ⟨as, rfl⟩ := h
  obtain ⟨bs, rfl⟩ := h'
  exact ⟨as ++ bs, List.foldl_append⟩

/-- If every step that the guard forbids breaks the property, and an invariant kept
by the allowed steps implies it, guard and property agree on whole runs. The
invariant may speak of the labels still to come. -/
theorem throughout_iff_along (Inv : List α → σ → Prop) (hP : ∀ s as, Inv as s → P s)
    (hstep : ∀ s a as, Inv (a :: as) s → G s a → Inv as (step s a))
    (hbreak : ∀ s a as, Inv (a :: as) s → ¬ G s a → ¬ P (step s a)) (h0 : Inv as s) :
    Throughout step P s as ↔ Along step G s as := by
  induction as generalizing s with
  | nil => exact ⟨fun _ => trivial, fun _ => hP s [] h0⟩
  | cons a as ih =>
    constructor
    · intro h
      have hG : G s a := by
        by_contra hn
        exact hbreak s a as h0 hn h.2.first
      exact ⟨hG, (ih (hstep s a as h0 hG)).mp h.2⟩
    · intro h
      exact ⟨hP s _ h0, (ih (hstep s a as h0 h.1)).mpr h.2⟩

/-! ## Systems that answer -/

section Outputs

variable {τ β : Type*} (call : σ → α → σ × β) (spec : τ → α → τ × β)

/-- The answers to a list of calls, and the state after them. -/
def answers : σ → List α → σ × List β
  | s, [] => (s, [])
  | s, a :: as =>
    let (s, b) := call s a
    let (s, bs) := answers s as
    (s, b :: bs)

variable {call spec}

/-- A relation that every call keeps, with the same answer on both sides, is kept by every
run, with the same answers. -/
theorem answers_of_simulation {R : σ → τ → Prop}
    (hcall : ∀ s t a, R s t → R (call s a).1 (spec t a).1 ∧ (call s a).2 = (spec t a).2)
    {s : σ} {t : τ} (h0 : R s t) (as : List α) :
    R (answers call s as).1 (answers spec t as).1 ∧
      (answers call s as).2 = (answers spec t as).2 := by
  induction as generalizing s t with
  | nil => exact ⟨h0, rfl⟩
  | cons a as ih =>
    obtain ⟨hR, hout⟩ := hcall s t a h0
    obtain ⟨hlast, houts⟩ := ih hR
    exact ⟨hlast, congrArg₂ List.cons hout houts⟩

/-- If the relation is kept, with the same answer, by every call that the guard allows, and every
call that it forbids has another answer, a run has the same answers if and only if all of its
calls are allowed. -/
theorem answers_eq_iff_along {R : σ → τ → Prop} {G : σ → α → Prop}
    (hcall : ∀ s t a, R s t → G s a →
      R (call s a).1 (spec t a).1 ∧ (call s a).2 = (spec t a).2)
    (hbreak : ∀ s t a, R s t → ¬ G s a → (call s a).2 ≠ (spec t a).2)
    {s : σ} {t : τ} (h0 : R s t) (as : List α) :
    (answers call s as).2 = (answers spec t as).2 ↔ Along (fun s a => (call s a).1) G s as := by
  induction as generalizing s t with
  | nil => exact ⟨fun _ => trivial, fun _ => rfl⟩
  | cons a as ih =>
    simp only [answers, List.cons.injEq, Along]
    by_cases hG : G s a
    · obtain ⟨hR, hout⟩ := hcall s t a h0 hG
      simp only [hout, hG, true_and, ih hR]
    · simp only [hbreak s t a h0 hG, hG, false_and]

end Outputs

end BigPlan.Lib.Runs
