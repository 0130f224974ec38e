import BigPlan.Lib.Runs
import Mathlib.Data.List.Forall2

/-!
# Recursion on a stack

A recursive function takes the depth of the stack that is left, and fails when it is used up.
It returns a value if it does so on every stack that is deep enough. The rules put together
what a function returns from what the calls in its body return.
-/
namespace BigPlan.Lib.Recursion

variable {ε α β σ : Type}

def Returns (f : ℕ → Except ε α) (a : α) : Prop :=
  ∃ n, ∀ depth, n ≤ depth → f depth = .ok a

variable {f : ℕ → Except ε α} {a a' : α}

theorem Returns.unique (h : Returns f a) (h' : Returns f a') : a = a' := by
  obtain ⟨n, hn⟩ := h
  obtain ⟨n', hn'⟩ := h'
  have heq := (hn _ (Nat.le_max_left n n')).symm.trans (hn' _ (Nat.le_max_right n n'))
  cases heq
  rfl

theorem returns_of_eq {e : Except ε α} (h : e = .ok a) : Returns (fun _ => e) a :=
  ⟨0, fun _ _ => h⟩

theorem returns_pure (a : α) : Returns (fun _ => (pure a : Except ε α)) a := returns_of_eq rfl

/-- A function returns what its body returns, which runs with one call less on the stack. -/
theorem returns_succ : Returns (fun depth => f (depth + 1)) a ↔ Returns f a := by
  constructor
  · intro h
    obtain ⟨n, hn⟩ := h
    refine ⟨n + 1, fun depth hdepth => ?_⟩
    obtain ⟨depth, rfl⟩ := Nat.exists_eq_succ_of_ne_zero (show depth ≠ 0 by omega)
    exact hn depth (by omega)
  · intro h
    obtain ⟨n, hn⟩ := h
    exact ⟨n, fun depth hdepth => hn (depth + 1) (by omega)⟩

theorem Returns.bind {g : ℕ → α → Except ε β} {b : β} (hf : Returns f a)
    (hg : Returns (fun depth => g depth a) b) : Returns (fun depth => f depth >>= g depth) b := by
  obtain ⟨n, hn⟩ := hf
  obtain ⟨n', hn'⟩ := hg
  refine ⟨max n n', fun depth hdepth => ?_⟩
  simp only [hn depth (by omega)]
  exact hn' depth (by omega)

/-- A loop returns if each round does, from a state that fits the rounds still to come. -/
theorem returns_foldlM {f : ℕ → σ → α → Except ε σ} {I : σ → List α → Prop}
    (hround : ∀ s x l, I s (x :: l) → ∃ s', Returns (fun depth => f depth s x) s' ∧ I s' l)
    {s : σ} {l : List α} (h : I s l) :
    ∃ s', Returns (fun depth => l.foldlM (f depth) s) s' ∧ I s' [] := by
  induction l generalizing s with
  | nil => exact ⟨s, returns_pure s, h⟩
  | cons x l ih =>
    obtain ⟨s', hs', hI⟩ := hround s x l h
    obtain ⟨s'', hs'', hlast⟩ := ih hI
    refine ⟨s'', ?_, hlast⟩
    simp only [List.foldlM_cons]
    exact hs'.bind hs''

/-- A loop that appends something to what was found for each element. -/
theorem returns_foldlM_append {f : ℕ → List β → α → Except ε (List β)} {g : α → List β}
    {l : List α}
    (hround : ∀ x ∈ l, ∀ found, Returns (fun depth => f depth found x) (found ++ g x))
    (found : List β) :
    Returns (fun depth => l.foldlM (f depth) found) (found ++ l.flatMap g) := by
  induction l generalizing found with
  | nil => simpa using returns_pure found
  | cons x l ih =>
    have hrest := ih (fun x hx => hround x (List.mem_cons_of_mem _ hx)) (found ++ g x)
    rw [List.append_assoc] at hrest
    simp only [List.foldlM_cons, List.flatMap_cons]
    exact (hround x List.mem_cons_self found).bind hrest

/-- Elements that stand to others one by one are mapped to results that do. -/
theorem returns_mapM_of_forall₂ {γ : Type} {f : ℕ → α → Except ε β} {R : α → γ → Prop}
    {Q : β → γ → Prop} {l : List α} {cs : List γ} (h : List.Forall₂ R l cs)
    (hf : ∀ x ∈ l, ∀ c ∈ cs, R x c → ∃ b, Returns (fun depth => f depth x) b ∧ Q b c) :
    ∃ bs, Returns (fun depth => l.mapM (f depth)) bs ∧ List.Forall₂ Q bs cs := by
  induction h with
  | nil => exact ⟨[], returns_pure [], .nil⟩
  | @cons x c l cs hx hrest ih =>
    obtain ⟨b, hb, hQ⟩ := hf x List.mem_cons_self c List.mem_cons_self hx
    obtain ⟨bs, hbs, hall⟩ :=
      ih fun x hx c hc => hf x (List.mem_cons_of_mem _ hx) c (List.mem_cons_of_mem _ hc)
    refine ⟨b :: bs, ?_, .cons hQ hall⟩
    simp only [List.mapM_cons]
    exact hb.bind (hbs.bind (returns_pure _))

/-! ## Systems whose calls recur -/

section Calls

open Runs

/-- The answers to a list of calls that may fail, and the state after them. -/
def answersM (call : σ → α → Except ε (σ × β)) : σ → List α → Except ε (σ × List β)
  | s, [] => .ok (s, [])
  | s, a :: as => do
    let (s, b) ← call s a
    let (s, bs) ← answersM call s as
    return (s, b :: bs)

variable {τ : Type} {call : ℕ → σ → α → Except ε (σ × β)} {spec : τ → α → τ × β}

/-- If every call that the guard allows returns the answer of the other system, and keeps the
relation to its state, a run of such calls returns its answers. -/
theorem returns_answers {R : σ → τ → Prop} {G : τ → α → Prop}
    (hcall : ∀ s t a, R s t → G t a →
      ∃ s', Returns (fun depth => call depth s a) (s', (spec t a).2) ∧ R s' (spec t a).1)
    {s : σ} {t : τ} (h0 : R s t) {as : List α} (halong : Along (fun t a => (spec t a).1) G t as) :
    ∃ s', Returns (fun depth => answersM (call depth) s as) (s', (answers spec t as).2) ∧
      R s' (answers spec t as).1 := by
  induction as generalizing s t with
  | nil => exact ⟨s, returns_pure _, h0⟩
  | cons a as ih =>
    obtain ⟨s', hs', hR⟩ := hcall s t a h0 halong.1
    obtain ⟨s'', hs'', hlast⟩ := ih hR halong.2
    exact ⟨s'', hs'.bind (hs''.bind (returns_pure _)), hlast⟩

end Calls

end BigPlan.Lib.Recursion
