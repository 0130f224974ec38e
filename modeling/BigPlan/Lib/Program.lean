import Mathlib.Data.List.Basic

/-!
# Programs that run in steps

A program performs one operation at a time and goes on with the answer, whatever it is; other
programs may run in between. The rules say what holds of the events, each an operation with its
answer, by the time the program returns, and of the events before each operation.
-/
namespace BigPlan.Lib

/-- A loop runs its body until this returns a value on the right. -/
inductive Program (O : Type) (A : O → Type) : Type → Type 1 where
  | ret {α : Type} (a : α) : Program O A α
  | perform {α : Type} (op : O) (next : A op → Program O A α) : Program O A α
  | loop {α σ β : Type} (body : σ → Program O A (σ ⊕ β)) (s : σ) (next : β → Program O A α) :
    Program O A α

/-- An operation and its answer. -/
structure Event (O : Type) (A : O → Type) where
  op : O
  answer : A op

namespace Program

variable {O : Type} {A : O → Type} {α β σ ε : Type}

protected def bind : Program O A α → (α → Program O A β) → Program O A β
  | ret a, f => f a
  | perform op next, f => perform op fun a => (next a).bind f
  | loop body s next, f => loop body s fun b => (next b).bind f

instance : Monad (Program O A) where
  pure := ret
  bind := Program.bind

def call (op : O) : Program O A (A op) := perform op ret

/-- One more run of the body, and then the rest of the loop. -/
def unroll (body : σ → Program O A (σ ⊕ β)) (s : σ) (next : β → Program O A α) : Program O A α :=
  (body s).bind fun
    | .inl s => loop body s next
    | .inr b => next b

theorem perform_congr {op : O} {f g : A op → Program O A α} (h : ∀ a, f a = g a) :
    perform op f = perform op g := congrArg (perform op) (funext h)

theorem bind_congr {p : Program O A α} {f g : α → Program O A β} (h : ∀ a, f a = g a) :
    p.bind f = p.bind g := congrArg p.bind (funext h)

theorem bind_assoc {γ : Type} (p : Program O A α) (f : α → Program O A β)
    (g : β → Program O A γ) : (p.bind f).bind g = p.bind fun a => (f a).bind g := by
  induction p with
  | ret a => rfl
  | perform op next ih => exact perform_congr fun a => ih a f
  | loop body s next ihbody ihnext =>
    exact congrArg (loop body s) (funext fun b => ihnext b f)

/-- What is left after an operation is not what was left before it. -/
theorem next_ne {p : Program O A α} {op : O} {next : A op → Program O A α} {a : A op}
    (h : p = perform op next) : next a ≠ p := by
  induction p with
  | ret a' => cases h
  | loop body s next' => cases h
  | perform op' next' ih =>
    cases h
    intro hsame
    exact ih a hsame rfl

/-- What the program returns if every operation is answered from a fixed state, with as many
steps as are given. -/
def evaluate (answer : (op : O) → A op) : ℕ → Program O A α → Option α
  | _, ret a => some a
  | 0, _ => none
  | n + 1, perform op next => evaluate answer n (next (answer op))
  | n + 1, loop body s next => evaluate answer n (unroll body s next)

/-! ## A program that runs alone -/

section Alone

variable {S : Type} (step : S → (op : O) → S × A op)

/-- The state and the value at the end of a run whose operations change the state, with as many
steps as are given. -/
def execute : ℕ → S → Program O A α → Option (S × α)
  | _, s, ret a => some (s, a)
  | 0, _, _ => none
  | n + 1, s, perform op next => execute n (step s op).1 (next (step s op).2)
  | n + 1, s, loop body x next => execute n s (unroll body x next)

/-- With enough steps the program returns. -/
def Returns (s : S) (p : Program O A α) (s' : S) (a : α) : Prop :=
  ∃ n, execute step n s p = some (s', a)

variable {step} {s s' s'' : S} {p : Program O A α} {a : α}

theorem returns_ret : Returns step s (ret a : Program O A α) s a := ⟨0, rfl⟩

theorem returns_perform {op : O} {next : A op → Program O A α}
    (h : Returns step (step s op).1 (next (step s op).2) s' a) :
    Returns step s (perform op next) s' a := by
  obtain ⟨n, hn⟩ := h
  exact ⟨n + 1, hn⟩

theorem returns_loop {body : σ → Program O A (σ ⊕ β)} {x : σ} {next : β → Program O A α}
    (h : Returns step s (unroll body x next) s' a) : Returns step s (loop body x next) s' a := by
  obtain ⟨n, hn⟩ := h
  exact ⟨n + 1, hn⟩

theorem unroll_bind (body : σ → Program O A (σ ⊕ ε)) (x : σ) (next : ε → Program O A α)
    (f : α → Program O A β) :
    (unroll body x next).bind f = unroll body x fun b => (next b).bind f := by
  rw [unroll, bind_assoc]
  exact bind_congr fun
    | .inl _ => rfl
    | .inr _ => rfl

theorem Returns.bind {f : α → Program O A β} {b : β} (h : Returns step s p s' a)
    (hf : Returns step s' (f a) s'' b) : Returns step s (p.bind f) s'' b := by
  obtain ⟨n, hn⟩ := h
  induction n generalizing s p with
  | zero =>
    cases p with
    | ret a' =>
      cases hn
      exact hf
    | perform op next => cases hn
    | loop body x next => cases hn
  | succ n ih =>
    cases p with
    | ret a' =>
      cases hn
      exact hf
    | perform op next => exact returns_perform (ih hn)
    | loop body x next =>
      refine returns_loop ?_
      rw [← unroll_bind]
      exact ih hn

theorem Returns.of_bind {f : α → Program O A β} {b : β} (h : Returns step s (p.bind f) s' b) :
    ∃ s₁ a, Returns step s p s₁ a ∧ Returns step s₁ (f a) s' b := by
  obtain ⟨n, hn⟩ := h
  induction n generalizing s p with
  | zero =>
    cases p with
    | ret a => exact ⟨s, a, returns_ret, 0, hn⟩
    | perform op next => cases hn
    | loop body x next => cases hn
  | succ n ih =>
    cases p with
    | ret a => exact ⟨s, a, returns_ret, n + 1, hn⟩
    | perform op next =>
      obtain ⟨s₁, a, hp, hf⟩ := ih hn
      exact ⟨s₁, a, returns_perform hp, hf⟩
    | loop body x next =>
      have hunrolled : execute step n s ((unroll body x next).bind f) = some (s', b) := by
        rw [unroll_bind]
        exact hn
      obtain ⟨s₁, a, hp, hf⟩ := ih hunrolled
      exact ⟨s₁, a, returns_loop hp, hf⟩

/-- More steps than are needed change nothing. -/
theorem execute_unique {x y : S × α} {n k : ℕ} (h : execute step n s p = some x)
    (h' : execute step k s p = some y) : x = y := by
  induction n generalizing k s p with
  | zero =>
    cases p with
    | ret a =>
      cases k <;> exact Option.some.inj (h.symm.trans h')
    | perform op next => cases h
    | loop body x next => cases h
  | succ n ih =>
    cases k with
    | zero =>
      cases p with
      | ret a => exact Option.some.inj (h.symm.trans h')
      | perform op next => cases h'
      | loop body x next => cases h'
    | succ k =>
      cases p with
      | ret a => exact Option.some.inj (h.symm.trans h')
      | perform op next => exact ih h h'
      | loop body x next => exact ih h h'

theorem Returns.unique {a' : α} (h : Returns step s p s' a) (h' : Returns step s p s'' a') :
    s' = s'' ∧ a = a' := by
  obtain ⟨n, hn⟩ := h
  obtain ⟨k, hk⟩ := h'
  exact Prod.mk.inj (execute_unique hn hk)

/-- A program whose operations leave the state is evaluated in this state. -/
theorem evaluate_of_returns {answer : (op : O) → A op}
    (h : Returns (fun (s : S) op => (s, answer op)) s p s' a) :
    ∃ n, evaluate answer n p = some a := by
  obtain ⟨n, hn⟩ := h
  refine ⟨n, ?_⟩
  induction n generalizing p with
  | zero =>
    cases p with
    | ret a' => exact congrArg (Option.map Prod.snd) hn
    | perform op next => cases hn
    | loop body x next => cases hn
  | succ n ih =>
    cases p with
    | ret a' => exact congrArg (Option.map Prod.snd) hn
    | perform op next => exact ih hn
    | loop body x next => exact ih hn

end Alone

/-! ## What holds of the events -/

variable {Safe Safe' : O → List (Event O A) → Prop} {events : List (Event O A)}

/-- The program performs only operations that are safe after the events so far, the last one
first, and if it returns, the postcondition holds. -/
def Ensures (Safe : O → List (Event O A) → Prop) {α : Type} :
    Program O A α → (α → List (Event O A) → Prop) → List (Event O A) → Prop
  | ret a, Q, events => Q a events
  | perform op next, Q, events =>
    Safe op events ∧ ∀ a, Ensures Safe (next a) Q (⟨op, a⟩ :: events)
  | loop body s next, Q, events =>
    ∃ I : _ → List (Event O A) → Prop, I s events ∧ ∀ s events, I s events →
      Ensures Safe (body s) (fun
        | .inl s, events => I s events
        | .inr b, events => Ensures Safe (next b) Q events) events

section Rules

variable {p : Program O A α} {Q Q' : α → List (Event O A) → Prop}

theorem Ensures.mono (h : Ensures Safe p Q events) (hQ : ∀ a events, Q a events → Q' a events) :
    Ensures Safe p Q' events := by
  induction p generalizing events with
  | ret a => exact hQ a events h
  | perform op next ih => exact ⟨h.1, fun a => ih a (h.2 a) hQ⟩
  | loop body s next ihbody ihnext =>
    obtain ⟨I, h0, hI⟩ := h
    refine ⟨I, h0, fun s events hs => ihbody s (hI s events hs) fun r events hr => ?_⟩
    cases r with
    | inl s => exact hr
    | inr b => exact ihnext b hr hQ

/-- What is ensured in two ways. -/
theorem Ensures.and (h : Ensures Safe p Q events) (h' : Ensures Safe' p Q' events) :
    Ensures Safe p (fun a events => Q a events ∧ Q' a events) events := by
  induction p generalizing events with
  | ret a => exact ⟨h, h'⟩
  | perform op next ih => exact ⟨h.1, fun a => ih a (h.2 a) (h'.2 a)⟩
  | loop body s next ihbody ihnext =>
    obtain ⟨I, h0, hI⟩ := h
    obtain ⟨I', h0', hI'⟩ := h'
    refine ⟨fun s events => I s events ∧ I' s events, ⟨h0, h0'⟩, fun s events hs => ?_⟩
    refine (ihbody s (hI s events hs.1) (hI' s events hs.2)).mono fun r events hr => ?_
    cases r with
    | inl s => exact hr
    | inr b => exact ihnext b hr.1 hr.2

theorem Ensures.of_safe (h : Ensures Safe p Q events)
    (hsafe : ∀ op events, Safe op events → Safe' op events) : Ensures Safe' p Q events := by
  induction p generalizing events with
  | ret a => exact h
  | perform op next ih => exact ⟨hsafe op events h.1, fun a => ih a (h.2 a)⟩
  | loop body s next ihbody ihnext =>
    obtain ⟨I, h0, hI⟩ := h
    refine ⟨I, h0, fun s events hs => (ihbody s (hI s events hs)).mono fun r events hr => ?_⟩
    cases r with
    | inl s => exact hr
    | inr b => exact ihnext b hr

theorem ensures_bind {f : α → Program O A β} {Q : β → List (Event O A) → Prop} :
    Ensures Safe (p.bind f) Q events ↔
      Ensures Safe p (fun a events => Ensures Safe (f a) Q events) events := by
  induction p generalizing events with
  | ret a => exact Iff.rfl
  | perform op next ih => exact and_congr_right fun _ => forall_congr' fun a => ih a
  | loop body s next ihbody ihnext =>
    refine exists_congr fun I => and_congr_right fun _ => forall_congr' fun s =>
      forall_congr' fun events => imp_congr_right fun _ => iff_of_eq (congrArg₂ _ ?_ rfl)
    funext r events
    cases r with
    | inl s => rfl
    | inr b => exact propext (ihnext b)

/-- One more run of the body keeps what a loop ensures. -/
theorem ensures_unroll {body : σ → Program O A (σ ⊕ β)} {s : σ} {next : β → Program O A α}
    (h : Ensures Safe (loop body s next) Q events) :
    Ensures Safe (unroll body s next) Q events := by
  obtain ⟨I, h0, hI⟩ := h
  rw [unroll, ensures_bind]
  refine (hI s events h0).mono fun r events hr => ?_
  cases r with
  | inl s => exact ⟨I, hr, hI⟩
  | inr b => exact hr

end Rules

/-! ## Programs that perform only some operations -/

/-- All operations that the program may perform are of the kind. -/
def Only (K : O → Prop) {α : Type} : Program O A α → Prop
  | ret _ => True
  | perform op next => K op ∧ ∀ a, Only K (next a)
  | loop body _ next => (∀ s, Only K (body s)) ∧ ∀ b, Only K (next b)

section Only

variable {K K' : O → Prop} {p : Program O A α}

theorem Only.mono (h : Only K p) (hK : ∀ op, K op → K' op) : Only K' p := by
  induction p with
  | ret a => trivial
  | perform op next ih => exact ⟨hK op h.1, fun a => ih a (h.2 a)⟩
  | loop body s next ihbody ihnext =>
    exact ⟨fun s => ihbody s (h.1 s), fun b => ihnext b (h.2 b)⟩

theorem Only.bind {f : α → Program O A β} (h : Only K p) (hf : ∀ a, Only K (f a)) :
    Only K (p.bind f) := by
  induction p with
  | ret a => exact hf a
  | perform op next ih => exact ⟨h.1, fun a => ih a (h.2 a) hf⟩
  | loop body s next ihbody ihnext => exact ⟨h.1, fun b => ihnext b (h.2 b) hf⟩

/-- What the operations of the kind keep, the program keeps. -/
theorem Only.ensures {J : List (Event O A) → Prop} (h : Only K p)
    (hsafe : ∀ op events, K op → J events → Safe op events)
    (hstep : ∀ op a events, K op → J events → J (⟨op, a⟩ :: events)) (h0 : J events) :
    Ensures Safe p (fun _ => J) events := by
  induction p generalizing events with
  | ret a => exact h0
  | perform op next ih =>
    exact ⟨hsafe op events h.1 h0, fun a => ih a (h.2 a) (hstep op a events h.1 h0)⟩
  | loop body s next ihbody ihnext =>
    refine ⟨fun _ => J, h0, fun s events hs => (ihbody s (h.1 s) hs).mono fun r events hr => ?_⟩
    cases r with
    | inl s => exact hr
    | inr b => exact ihnext b (h.2 b) hr

/-- What every operation of the kind preserves holds when the program returns. -/
theorem Only.returns_keeps {S : Type} {step : S → (op : O) → S × A op} {J : S → Prop} {s s' : S}
    {a : α} (h : Only K p) (hK : ∀ s op, K op → J s → J (step s op).1) (hs : J s)
    (hreturns : Returns step s p s' a) : J s' := by
  obtain ⟨n, hn⟩ := hreturns
  induction n generalizing s p with
  | zero =>
    cases p with
    | ret a =>
      obtain ⟨rfl, -⟩ := Prod.mk.inj (Option.some.inj hn)
      exact hs
    | perform op next => cases hn
    | loop body x next => cases hn
  | succ n ih =>
    cases p with
    | ret a =>
      obtain ⟨rfl, -⟩ := Prod.mk.inj (Option.some.inj hn)
      exact hs
    | perform op next =>
      obtain ⟨hop, hnext⟩ := h
      exact ih (hnext _) (hK s op hop hs) hn
    | loop body x next =>
      obtain ⟨hbody, hnext⟩ := h
      refine ih (p := unroll body x next) ((hbody x).bind fun r => ?_) hs hn
      cases r with
      | inl y => exact ⟨hbody, hnext⟩
      | inr b => exact hnext b

/-- Any program performs only operations. -/
theorem only_any : Only (fun _ => True) p := by
  induction p with
  | ret a => trivial
  | perform op next ih => exact ⟨trivial, ih⟩
  | loop body s next ihbody ihnext => exact ⟨ihbody, ihnext⟩

/-- The later events are the earlier ones and some of the kind. -/
def Grows (K : O → Prop) (events events' : List (Event O A)) : Prop :=
  ∃ new, events' = new ++ events ∧ ∀ e ∈ new, K e.op

theorem Grows.refl : Grows K events events := ⟨[], rfl, fun _ h => absurd h List.not_mem_nil⟩

theorem Grows.step {events' : List (Event O A)} (h : Grows K events events') {op : O} (hop : K op)
    (a : A op) : Grows K events (⟨op, a⟩ :: events') := by
  obtain ⟨new, rfl, hnew⟩ := h
  refine ⟨⟨op, a⟩ :: new, rfl, fun e he => ?_⟩
  rcases List.mem_cons.mp he with rfl | he
  · exact hop
  · exact hnew e he

theorem Grows.subset {events' : List (Event O A)} (h : Grows K events events') :
    events ⊆ events' := by
  obtain ⟨new, rfl, -⟩ := h
  exact List.subset_append_right new events

/-- The events of another kind were there before. -/
theorem Grows.mem {events' : List (Event O A)} (h : Grows K events events') {e : Event O A}
    (he : e ∈ events') (hK : ¬ K e.op) : e ∈ events := by
  obtain ⟨new, rfl, hnew⟩ := h
  rcases List.mem_append.mp he with he | he
  · exact absurd (hnew e he) hK
  · exact he

theorem Only.grows (h : Only K p) (hsafe : ∀ op events, K op → Safe op events) :
    Ensures Safe p (fun _ => Grows K events) events :=
  h.ensures (fun op events hop _ => hsafe op events hop) (fun _ a _ hop hg => hg.step hop a)
    Grows.refl

/-- What holds of the events, and of which kind the new ones are. -/
theorem Ensures.and_grows {Q : α → List (Event O A) → Prop} (h : Ensures Safe p Q events)
    (hK : Only K p) : Ensures Safe p (fun a events' => Q a events' ∧ Grows K events events')
      events := by
  suffices hgen : ∀ start, Grows K start events →
      Ensures Safe p (fun a events' => Q a events' ∧ Grows K start events') events from
    hgen events Grows.refl
  induction p generalizing events with
  | ret a => exact fun start hg => ⟨h, hg⟩
  | perform op next ih =>
    exact fun start hg => ⟨h.1, fun a => ih a (h.2 a) (hK.2 a) start (hg.step hK.1 a)⟩
  | loop body s next ihbody ihnext =>
    intro start hg
    obtain ⟨I, h0, hI⟩ := h
    refine ⟨fun s events => I s events ∧ Grows K start events, ⟨h0, hg⟩, fun s events hs => ?_⟩
    refine (ihbody s (hI s events hs.1) (hK.1 s) start hs.2).mono fun r events' hr => ?_
    cases r with
    | inl s => exact hr
    | inr b => exact ihnext b hr.1 (hK.2 b) start hr.2

end Only

/-! ## Exceptions -/

section Exceptions

/-- `for (;;)`. -/
def forever (body : σ → ExceptT ε (Program O A) (σ ⊕ α)) (s : σ) : ExceptT ε (Program O A) α :=
  ExceptT.mk <| loop (fun s => (body s).run.bind fun
    | .ok (.inl s) => ret (.inl s)
    | .ok (.inr a) => ret (.inr (.ok a))
    | .error e => ret (.inr (.error e))) s ret

/-- `try` and `finally`, where the body returns along with its value whether it has failed, as it
has if it throws, and only then there is something to clean up. -/
def withFinally (body : ExceptT ε (Program O A) (Bool × α)) (cleanup : ExceptT ε (Program O A) Unit) :
    ExceptT ε (Program O A) α :=
  ExceptT.mk <| body.run.bind fun
    | .ok (false, a) => ret (.ok a)
    | .ok (true, a) => cleanup.run.bind fun r => ret (r.map fun _ => a)
    | .error e => cleanup.run.bind fun r => ret (r.bind fun _ => .error e)

/-- A program with other exceptions. -/
def mapError {ε' : Type} (f : ε → ε') (m : ExceptT ε (Program O A) α) :
    ExceptT ε' (Program O A) α :=
  ExceptT.mk <| m.run.bind fun r => ret (r.mapError f)

variable {m : ExceptT ε (Program O A) α} {Q : Except ε α → List (Event O A) → Prop}

@[simp] theorem ensures_pure {a : α} :
    Ensures Safe (pure a : ExceptT ε (Program O A) α) Q events ↔ Q (.ok a) events := Iff.rfl

@[simp] theorem ensures_throw {e : ε} :
    Ensures Safe (throw e : ExceptT ε (Program O A) α) Q events ↔ Q (.error e) events := Iff.rfl

@[simp] theorem ensures_lift {p : Program O A α} :
    Ensures Safe (ExceptT.lift p : ExceptT ε (Program O A) α) Q events ↔
      Ensures Safe p (fun a events => Q (.ok a) events) events := ensures_bind

@[simp] theorem ensures_then {f : α → ExceptT ε (Program O A) β}
    {Q : Except ε β → List (Event O A) → Prop} :
    Ensures Safe (m >>= f : ExceptT ε (Program O A) β) Q events ↔ Ensures Safe m (fun
      | .ok a, events => Ensures Safe (f a) Q events
      | .error e, events => Q (.error e) events) events := by
  refine ensures_bind.trans (iff_of_eq (congrArg₂ _ ?_ rfl))
  funext r events
  cases r with
  | ok a => rfl
  | error e => rfl

@[simp] theorem ensures_mapError {ε' : Type} {f : ε → ε'}
    {Q : Except ε' α → List (Event O A) → Prop} :
    Ensures Safe (mapError f m) Q events ↔
      Ensures Safe m (fun r events => Q (r.mapError f) events) events := ensures_bind

/-- The rule of composition. -/
theorem ensures_seq {f : α → ExceptT ε (Program O A) β} {R : Except ε α → List (Event O A) → Prop}
    {Q : Except ε β → List (Event O A) → Prop} (hm : Ensures Safe m R events)
    (herror : ∀ e events, R (.error e) events → Q (.error e) events)
    (hok : ∀ a events, R (.ok a) events → Ensures Safe (f a) Q events) :
    Ensures Safe (m >>= f : ExceptT ε (Program O A) β) Q events := by
  refine ensures_then.mpr (hm.mono fun r events hr => ?_)
  cases r with
  | ok a => exact hok a events hr
  | error e => exact herror e events hr

/-- The rule of invariants. -/
theorem ensures_forever {body : σ → ExceptT ε (Program O A) (σ ⊕ α)} {s : σ}
    (I : σ → List (Event O A) → Prop) (h0 : I s events)
    (hI : ∀ s events, I s events → Ensures Safe (body s) (fun
      | .ok (.inl s), events => I s events
      | .ok (.inr a), events => Q (.ok a) events
      | .error e, events => Q (.error e) events) events) :
    Ensures Safe (forever body s) Q events := by
  refine ⟨I, h0, fun s events hs => ensures_bind.mpr ((hI s events hs).mono ?_)⟩
  intro r events hr
  cases r with
  | ok r =>
    cases r with
    | inl s => exact hr
    | inr a => exact hr
  | error e => exact hr

theorem ensures_withFinally {body : ExceptT ε (Program O A) (Bool × α)}
    {cleanup : ExceptT ε (Program O A) Unit}
    (h : Ensures Safe body (fun
      | .ok (false, a), events => Q (.ok a) events
      | .ok (true, a), events =>
        Ensures Safe cleanup (fun r events => Q (r.map fun _ => a) events) events
      | .error e, events =>
        Ensures Safe cleanup (fun r events => Q (r.bind fun _ => .error e) events) events)
      events) :
    Ensures Safe (withFinally body cleanup) Q events := by
  refine ensures_bind.mpr (h.mono fun r events hr => ?_)
  cases r with
  | ok r =>
    obtain ⟨failed, a⟩ := r
    cases failed with
    | false => exact hr
    | true => exact ensures_bind.mpr hr
  | error e => exact ensures_bind.mpr hr

/-- The program does not throw, whatever its operations answer. -/
def Succeeds (m : ExceptT ε (Program O A) α) : Prop :=
  ∀ events, Ensures (fun _ _ => True) m (fun r _ => ∃ a, r = .ok a) events

theorem succeeds_pure {a : α} : Succeeds (pure a : ExceptT ε (Program O A) α) := fun _ => ⟨a, rfl⟩

theorem succeeds_call {op : O} : Succeeds (ExceptT.lift (call op) : ExceptT ε (Program O A) (A op)) :=
  fun _ => ⟨trivial, fun a => ⟨a, rfl⟩⟩

theorem succeeds_then {f : α → ExceptT ε (Program O A) β} (h : Succeeds m)
    (hf : ∀ a, Succeeds (f a)) : Succeeds (m >>= f : ExceptT ε (Program O A) β) := by
  intro events
  apply ensures_seq (h events)
  · rintro e events ⟨a, ha⟩
    cases ha
  · exact fun a events _ => hf a events

theorem succeeds_forever {body : σ → ExceptT ε (Program O A) (σ ⊕ α)}
    (h : ∀ s, Succeeds (body s)) (s : σ) : Succeeds (forever body s) := by
  intro events
  apply ensures_forever (fun _ _ => True) trivial
  intro s events _
  refine (h s events).mono fun r events hr => ?_
  obtain ⟨a, rfl⟩ := hr
  cases a with
  | inl s => trivial
  | inr a => exact ⟨a, rfl⟩

theorem Succeeds.ensures (h : Succeeds m) (hm : Ensures Safe m Q events) :
    Ensures Safe m (fun r events => ∃ a, r = .ok a ∧ Q r events) events :=
  (hm.and (h events)).mono fun _ _ hr => hr.2.imp fun _ ha => ⟨ha, hr.1⟩

section Alone

variable {S : Type} {step : S → (op : O) → S × A op} {s s' s'' : S}

theorem returns_pure {a : α} : Returns step s (pure a : ExceptT ε (Program O A) α) s (.ok a) :=
  returns_ret

theorem returns_lift {op : O} : Returns step s
    (ExceptT.lift (call op) : ExceptT ε (Program O A) (A op)) (step s op).1 (.ok (step s op).2) :=
  returns_perform returns_ret

theorem returns_then {f : α → ExceptT ε (Program O A) β} {a : α} {r : Except ε β}
    (h : Returns step s m s' (.ok a)) (hf : Returns step s' (f a) s'' r) :
    Returns step s (m >>= f : ExceptT ε (Program O A) β) s'' r := Returns.bind h hf

/-- What comes before has returned, if the whole has. -/
theorem Returns.of_then {f : α → ExceptT ε (Program O A) β} {b : β}
    (h : Returns step s (m >>= f : ExceptT ε (Program O A) β) s' (.ok b)) :
    ∃ s₁ a, Returns step s m s₁ (.ok a) ∧ Returns step s₁ (f a) s' (.ok b) := by
  obtain ⟨s₁, r, hm, hf⟩ := Returns.of_bind h
  cases r with
  | ok a => exact ⟨s₁, a, hm, hf⟩
  | error e =>
    obtain ⟨-, hr⟩ := hf.unique returns_ret
    cases hr

/-- The last turn of a loop. -/
theorem returns_forever_inr {body : σ → ExceptT ε (Program O A) (σ ⊕ α)} {x : σ} {a : α}
    (h : Returns step s (body x) s' (.ok (.inr a))) :
    Returns step s (forever body x) s' (.ok a) :=
  returns_loop (Returns.bind (Returns.bind h returns_ret) returns_ret)

/-- One turn, and then the others. -/
theorem returns_forever_inl {body : σ → ExceptT ε (Program O A) (σ ⊕ α)} {x y : σ} {r : Except ε α}
    (h : Returns step s (body x) s' (.ok (.inl y))) (hrest : Returns step s' (forever body y) s'' r) :
    Returns step s (forever body x) s'' r :=
  returns_loop (Returns.bind (Returns.bind h returns_ret) hrest)

end Alone

variable {K : O → Prop}

@[simp] theorem only_pure {a : α} : Only K (pure a : ExceptT ε (Program O A) α) := trivial

@[simp] theorem only_throw {e : ε} : Only K (throw e : ExceptT ε (Program O A) α) := trivial

theorem only_lift {p : Program O A α} (h : Only K p) :
    Only K (ExceptT.lift p : ExceptT ε (Program O A) α) := h.bind fun _ => trivial

theorem only_then {f : α → ExceptT ε (Program O A) β} (h : Only K m) (hf : ∀ a, Only K (f a)) :
    Only K (m >>= f : ExceptT ε (Program O A) β) :=
  Only.bind h fun
    | .ok a => hf a
    | .error _ => trivial

theorem only_forever {body : σ → ExceptT ε (Program O A) (σ ⊕ α)} (h : ∀ s, Only K (body s))
    (s : σ) : Only K (forever body s) :=
  ⟨fun s => Only.bind (h s) fun
    | .ok (.inl _) => trivial
    | .ok (.inr _) => trivial
    | .error _ => trivial, fun _ => trivial⟩

end Exceptions

end Program

end BigPlan.Lib
