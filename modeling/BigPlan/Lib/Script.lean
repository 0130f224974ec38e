import Mathlib.Data.List.ReduceOption

/-!
# Scripts without a rollback

A script reads and writes a state step by step. One that stops with an error leaves the state
as it is at that point: a loop over values leaves what it wrote before the first that is missing.
-/
namespace BigPlan.Lib

/-- The result is `none` after an error. -/
def Script (σ : Type*) (α : Type) := σ → Option α × σ

namespace Script

variable {σ : Type*} {α β : Type}

instance : Monad (Script σ) where
  pure a s := (some a, s)
  bind m f s :=
    match m s with
    | (some a, s') => f a s'
    | (none, s') => (none, s')

/-- The result, and the state that is left. -/
def run (m : Script σ α) (s : σ) : Option α × σ := m s

def error : Script σ α := fun s => (none, s)

def read (f : σ → α) : Script σ α := fun s => (some (f s), s)

def write (f : σ → σ) : Script σ Unit := fun s => (some (), f s)

/-- A value that may be missing, used where one is needed. -/
def need : Option α → Script σ α
  | some a => pure a
  | none => error

/-- A write for each value of a list, up to the first that is missing. -/
def forEach (f : α → σ → σ) : List (Option α) → Script σ Unit
  | [] => pure ()
  | v :: l => do
    let a ← need v
    write (f a)
    forEach f l

/-! ## Running -/

variable {s s' : σ} {a : α}

@[simp] theorem run_pure : run (pure a : Script σ α) s = (some a, s) := rfl

@[simp] theorem run_read (f : σ → α) : run (read f) s = (some (f s), s) := rfl

@[simp] theorem run_write (f : σ → σ) : run (write f) s = (some (), f s) := rfl

@[simp] theorem run_need_some : run (need (some a) : Script σ α) s = (some a, s) := rfl

@[simp] theorem run_need_none : run (need none : Script σ α) s = (none, s) := rfl

theorem run_bind (m : Script σ α) (f : α → Script σ β) :
    run (m >>= f) s =
      match run m s with
      | (some a, s') => run (f a) s'
      | (none, s') => (none, s') := rfl

theorem run_bind_some {m : Script σ α} {f : α → Script σ β} (h : run m s = (some a, s')) :
    run (m >>= f) s = run (f a) s' := by
  rw [run_bind, h]

theorem run_bind_none {m : Script σ α} {f : α → Script σ β} (h : run m s = (none, s')) :
    run (m >>= f) s = (none, s') := by
  rw [run_bind, h]

@[simp] theorem run_error : run (error : Script σ α) s = (none, s) := rfl

protected theorem ext {m m' : Script σ α} (h : ∀ s, run m s = run m' s) : m = m' := funext h

protected theorem map_id (m : Script σ α) : id <$> m = m := by
  apply Script.ext
  intro s
  show run (m >>= fun a => pure a) s = run m s
  rw [run_bind]
  cases hm : run m s with
  | mk answer s' =>
    cases answer with
    | none => rfl
    | some a => rfl

protected theorem bind_assoc {γ : Type} (m : Script σ α) (f : α → Script σ β) (g : β → Script σ γ) :
    m >>= f >>= g = m >>= fun a => f a >>= g := by
  apply Script.ext
  intro s
  rw [run_bind, run_bind, run_bind]
  cases hm : run m s with
  | mk answer s' =>
    cases answer with
    | none => rfl
    | some a => rfl

instance : LawfulMonad (Script σ) :=
  LawfulMonad.mk' (Script σ) Script.map_id (fun a f => rfl) Script.bind_assoc

/-! ## Loops -/

/-- The values before the first that is missing. -/
def leading : List (Option α) → List α
  | [] => []
  | none :: _ => []
  | some a :: l => a :: leading l

variable {f : α → σ → σ} {l : List (Option α)}

theorem leading_eq (h : none ∉ l) : leading l = l.reduceOption := by
  induction l with
  | nil => rfl
  | cons v l ih =>
    cases v with
    | none => exact absurd List.mem_cons_self h
    | some a => rw [leading, ih (List.not_mem_of_not_mem_cons h), List.reduceOption_cons_of_some]

/-- What is left out comes behind the leading values. -/
theorem leading_prefix (l : List (Option α)) : leading l <+: l.reduceOption := by
  induction l with
  | nil => exact List.prefix_rfl
  | cons v l ih =>
    cases v with
    | none => exact List.nil_prefix
    | some a =>
      rw [leading, List.reduceOption_cons_of_some]
      exact List.prefix_cons_inj a |>.mpr ih

theorem run_forEach_of_notMem (h : none ∉ l) :
    run (forEach f l) s = (some (), l.reduceOption.foldl (fun s a => f a s) s) := by
  induction l generalizing s with
  | nil => rfl
  | cons v l ih =>
    cases v with
    | none => exact absurd List.mem_cons_self h
    | some a =>
      rw [forEach, run_bind_some run_need_some, run_bind_some (run_write (f a)),
        ih (List.not_mem_of_not_mem_cons h), List.reduceOption_cons_of_some, List.foldl_cons]

theorem run_forEach_of_mem (h : none ∈ l) :
    run (forEach f l) s = (none, (leading l).foldl (fun s a => f a s) s) := by
  induction l generalizing s with
  | nil => cases h
  | cons v l ih =>
    cases v with
    | none => rfl
    | some a =>
      have hmem : none ∈ l := by simpa using h
      rw [forEach, run_bind_some run_need_some, run_bind_some (run_write (f a)), ih hmem]
      rfl

/-- A loop that looks up two lists at each index below their lengths is one over their pairs. -/
theorem forM_range_zip {as : List α} {bs : List β} {a? : ℕ → Option α} {b? : ℕ → Option β}
    (g : α → β → Script σ Unit) {n : ℕ} (ha : n ≤ as.length) (hb : n ≤ bs.length)
    (ha? : ∀ i < n, a? i = as[i]?) (hb? : ∀ i < n, b? i = bs[i]?) :
    (forM (List.range n) fun i => do
      let a ← need (a? i)
      let b ← need (b? i)
      g a b) = forM ((as.zip bs).take n) fun p => g p.1 p.2 := by
  induction n with
  | zero => rfl
  | succ n ih =>
    have hzip : (as.zip bs)[n]? = some (as[n], bs[n]) := by
      rw [List.getElem?_zip_eq_some]
      exact ⟨List.getElem?_eq_getElem (by omega), List.getElem?_eq_getElem (by omega)⟩
    have hlast : (do
        let a ← need (a? n)
        let b ← need (b? n)
        g a b) = g as[n] bs[n] := by
      rw [ha? n (by omega), hb? n (by omega), List.getElem?_eq_getElem (by omega),
        List.getElem?_eq_getElem (by omega)]
      rfl
    rw [List.range_succ, List.forM_append, ih (by omega) (by omega)
      (fun i hi => ha? i (by omega)) (fun i hi => hb? i (by omega)), List.take_add_one, hzip,
      List.forM_append]
    simp [hlast]

end Script

end BigPlan.Lib
