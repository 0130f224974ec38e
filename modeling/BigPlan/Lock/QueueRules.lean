import BigPlan.Lock.MethodRules
import BigPlan.Lock.Threads

/-!
# How calls use the sync queue

What a call may do to the queue depends on what it has seen before: which nodes it has made or has
to append, which ones it has found on the queue, and which ones ahead of others. Every call does
only what is allowed in this sense, as long as a node that it has found there has a node ahead of
it; and it returns with no node left to append.
-/
namespace BigPlan.QueuedSynchronizer

open Lib Lib.Java Program Node

variable {T : Type} {events events' : Events T} {node p n : Ref} {c : Call}

namespace Call

def Signals : Call → Prop
  | signal | signalAll => True
  | _ => False

/-- The call waits for a signal. -/
def Awaits : Call → Prop
  | await | awaitUninterruptibly | awaitNanos _ | awaitFor _ | awaitUntil _ => True
  | _ => False

theorem Awaits.not_signals (h : c.Awaits) : ¬ c.Signals := by
  cases c with
  | signal | signalAll => exact h.elim
  | _ => exact id

end Call

/-! ## What a call has seen -/

/-- The node is new in these events, and not a first head. -/
def Made (node : Ref) (events : Events T) : Prop :=
  ∃ t ws w, ⟨.newNode (some t) ws w, node⟩ ∈ events

/-- The node was appended to the sync queue. -/
def Appended (node : Ref) (events : Events T) : Prop :=
  ∃ field expect, ⟨.compareAndSet field expect (some node) .append, true⟩ ∈ events

/-- The wait of the node was cancelled. -/
def WaitCancelled (node : Ref) (events : Events T) : Prop :=
  ∃ expect update, ⟨.compareAndSetWaitStatus node expect update .cancelWait, true⟩ ∈ events

/-- A signal has taken the node from the condition queue. -/
def Unlinked (node : Ref) (events : Events T) : Prop :=
  ⟨.set (.nextWaiter node) none, ()⟩ ∈ events

/-- What the last read of `firstWaiter` has found. -/
def lastFirstWaiter : Events T → Option (Option Ref)
  | [] => none
  | ⟨.get .firstWaiter, w⟩ :: _ => some w
  | _ :: events => lastFirstWaiter events

/-- The call has become the holder, for what it is about to do to the condition queue. -/
def Granted (events : Events T) : Prop := ⟨.isHeldExclusively, some true⟩ ∈ events

/-- A method of the subclass has failed that does not fail for a waiter who held the lock. -/
def Failed (events : Events T) : Prop :=
  ∃ arg, ⟨.tryAcquire arg, none⟩ ∈ events ∨
    ∃ a : Option Bool, a ≠ some true ∧ ⟨.tryRelease arg, a⟩ ∈ events

def Heads (node : Ref) (events : Events T) : Prop := ⟨.set .head (some node), ()⟩ ∈ events

/-- The acquire of the node was cancelled. -/
def Left (node : Ref) (events : Events T) : Prop := ⟨.setWaitStatus node CANCELLED, ()⟩ ∈ events

/-- The node was found to be cancelled. -/
def Positive (node : Ref) (events : Events T) : Prop :=
  ∃ ws : ℤ, 0 < ws ∧ ⟨.getWaitStatus node, ws⟩ ∈ events

/-- The event appends the node. -/
def Appends (node : Ref) (e : Event (Op T) (Op.Answer T)) : Prop :=
  ∃ field expect, e = ⟨.compareAndSet field expect (some node) .append, true⟩

/-- The node was found on the sync queue. -/
inductive Joined : Ref → Events T → Prop where
  | appended {field : Field} {expect : Option Ref} {node : Ref} {events : Events T} :
    Joined node (⟨.compareAndSet field expect (some node) .append, true⟩ :: events)
  | behind {update : Option Ref} {node : Ref} {events : Events T} :
    Joined node (⟨.compareAndSet .tail (some node) update .append, true⟩ :: events)
  | tail {node : Ref} {events : Events T} : Joined node (⟨.get .tail, some node⟩ :: events)
  | prev {node p : Ref} {events : Events T} (h : Joined node events) :
    Joined p (⟨.get (.prev node), some p⟩ :: events)
  | next {node n : Ref} {events : Events T} : Joined node (⟨.get (.next node), some n⟩ :: events)
  | later {node : Ref} {e : Event (Op T) (Op.Answer T)} {events : Events T}
    (h : Joined node events) : Joined node (e :: events)

/-- One node was found ahead of the other, and the nodes between them to be cancelled. -/
inductive Ahead : Ref → Ref → Events T → Prop where
  | read {node p : Ref} {events : Events T} (h : Joined node events) :
    Ahead node p (⟨.get (.prev node), some p⟩ :: events)
  | skip {node p n : Ref} {events : Events T} (h : Ahead node p events)
    (hgone : Positive p events) : Ahead node n (⟨.get (.prev p), some n⟩ :: events)
  | later {node p : Ref} {e : Event (Op T) (Op.Answer T)} {events : Events T}
    (h : Ahead node p events) : Ahead node p (e :: events)

/-- There was no node ahead of one that has not been the head. -/
inductive Broken : Events T → Prop where
  | first {node : Ref} {events : Events T} (h : Joined node events) (hmade : Made node events)
    (hheads : ¬ Heads node events) : Broken (⟨.get (.prev node), none⟩ :: events)
  | skip {node p : Ref} {events : Events T} (h : Ahead node p events) (hgone : Positive p events) :
    Broken (⟨.get (.prev p), none⟩ :: events)
  | later {e : Event (Op T) (Op.Answer T)} {events : Events T} (h : Broken events) :
    Broken (e :: events)

/-- The call is to append the node: it has made it for that, it has cancelled its wait, or it has
taken it from the condition queue. -/
inductive Holds (c : Call) (node : Ref) : Events T → Prop where
  | made {t : T} {mode : Option Ref} {events : Events T} (hc : ¬ c.Signals) :
    Holds c node (⟨.newNode (some t) 0 mode, node⟩ :: events)
  | cancelled {events : Events T} (hc : ¬ c.Signals) :
    Holds c node (⟨.compareAndSetWaitStatus node CONDITION 0 .cancelWait, true⟩ :: events)
  | taken {events : Events T} (hc : c.Signals) :
    Holds c node (⟨.set (.nextWaiter node) none, ()⟩ :: events)
  | later {e : Event (Op T) (Op.Answer T)} {events : Events T} (h : Holds c node events)
    (he : ¬ Appends node e) : Holds c node (e :: events)

/-- No node is left to append. -/
def Settled (c : Call) (events : Events T) : Prop := ∀ node, ¬ Holds c node events

/-! ## What is allowed -/

/-- The operation takes a node from the condition queue, if the call is a signal. -/
def Takes : Op T → Prop
  | .set (.nextWaiter _) none => True
  | _ => False

/-- What a call may do. -/
inductive Allowed (c : Call) : Op T → Events T → Prop where
  | inert {o : Op T} {events : Events T} (h : Inert o)
    (hc : c.Signals → ¬ Takes o) : Allowed c o events
  | interrupted {events : Events T} : Allowed c .interrupted events
  | selfInterrupt {events : Events T} : Allowed c .selfInterrupt events
  | makeFirst {events : Events T} : Allowed c (.newNode none 0 none) events
  | make {t : T} {mode : Option Ref} {events : Events T} (hc : ¬ c.Signals) :
    Allowed c (.newNode (some t) 0 mode) events
  | makeWaiter {t : T} {events : Events T} (hc : c.Awaits) :
    Allowed c (.newNode (some t) CONDITION none) events
  | take {node : Ref} {events : Events T} (hc : c.Signals) (hgranted : Granted events) :
    Allowed c (.set (.nextWaiter node) none) events
  | cancelWait {node : Ref} {events : Events T} (hc : c.Awaits) (hmade : Made node events) :
    Allowed c (.compareAndSetWaitStatus node CONDITION 0 .cancelWait) events
  | prepare {node p : Ref} {events : Events T} (h : Holds c node events) :
    Allowed c (.set (.prev node) (some p)) events
  | append {node p : Ref} {events : Events T} (h : Holds c node events) :
    Allowed c (.compareAndSet .tail (some p) (some node) .append)
      (⟨.set (.prev node) (some p), ()⟩ :: events)
  | leadFirst {node : Ref} {events : Events T} :
    Allowed c (.compareAndSet .head none (some node) .other)
      (⟨.newNode none 0 none, node⟩ :: events)
  | begin {node : Ref} {v : Option Ref} {events : Events T} :
    Allowed c (.set .tail v)
      (⟨.get .head, v⟩ :: ⟨.compareAndSet .head none (some node) .other, true⟩ :: events)
  | lead {node p : Ref} {events : Events T} (hmade : Made node events)
    (hleft : ¬ Left node events) (h : Ahead node p events) (hp : ⟨.get .head, some p⟩ ∈ events) :
    Allowed c (.set .head (some node)) events
  | unlinkHead {node : Ref} {events : Events T} (h : Heads node events) :
    Allowed c (.set (.prev node) none) events
  | relink {node p : Ref} {events : Events T} (h : Ahead node p events) :
    Allowed c (.set (.prev node) (some p)) events
  | cancel {node : Ref} {events : Events T} (hmade : Made node events)
    (hheads : ¬ Heads node events) (hc : c.Awaits → Failed events) :
    Allowed c (.setWaitStatus node CANCELLED) events
  | cut {node p : Ref} {events : Events T} (hleft : Left node events) (h : Ahead node p events) :
    Allowed c (.compareAndSet .tail (some node) (some p) .other) events
  | linkNext {node : Ref} {v : Option Ref} {events : Events T}
    (h : Joined node events ∨ ∃ x, Ahead x node events) : Allowed c (.set (.next node) v) events
  | bypass {node : Ref} {expect update : Option Ref} {events : Events T}
    (h : ∃ x, Ahead x node events) :
    Allowed c (.compareAndSet (.next node) expect update .other) events

/-- If a node that was found on the queue had none ahead of it, nothing is said. -/
def Lawful (c : Call) (o : Op T) (events : Events T) : Prop := Broken events ∨ Allowed c o events

/-! ## Rules -/

/-- The method does what is allowed, and the postcondition holds when it returns. -/
def Does (c : Call) {ε α : Type} (m : ExceptT ε (Code T) α)
    (R : Except ε α → Events T → Prop) (events : Events T) : Prop :=
  Ensures (Lawful c) m (fun r events => Broken events ∨ R r events) events

section Does

variable {ε α β σ : Type} {m : ExceptT ε (Code T) α} {R R' : Except ε α → Events T → Prop}
  {Q : Except ε β → Events T → Prop}

theorem does_of_broken (h : Broken events) : Does c m R events :=
  (only_any.ensures (fun _ _ _ h => .inl h) (fun _ _ _ _ h => .later h) h).mono fun _ _ h => .inl h

theorem Does.mono (h : Does c m R events) (hR : ∀ r events, R r events → R' r events) :
    Does c m R' events := Ensures.mono h fun r events h => h.imp_right (hR r events)

theorem Does.and_grows {K : Op T → Prop} (h : Does c m R events) (hK : Only K m) :
    Does c m (fun r events' => R r events' ∧ Grows K events events') events :=
  (Ensures.and_grows h hK).mono fun _ _ h => h.1.imp_right fun hR => ⟨hR, h.2⟩

theorem Does.succeeds (h : Does c m R events) (hm : Succeeds m) :
    Does c m (fun r events' => ∃ a, r = .ok a ∧ R r events') events :=
  (hm.ensures h).mono fun _ _ h => h.elim fun a h => h.2.imp_right fun hR => ⟨a, h.1, hR⟩

theorem does_seq {f : α → ExceptT ε (Code T) β} (hm : Does c m R events)
    (herror : ∀ e events, R (.error e) events → Q (.error e) events)
    (hok : ∀ a events, R (.ok a) events → Does c (f a) Q events) :
    Does c (m >>= f : ExceptT ε (Code T) β) Q events := by
  apply ensures_seq hm
  · exact fun e events h => h.imp_right (herror e events)
  · intro a events h
    rcases h with hbroken | h
    · exact does_of_broken hbroken
    · exact hok a events h

theorem does_forever {body : σ → ExceptT ε (Code T) (σ ⊕ α)} {s : σ} (I : σ → Events T → Prop)
    (h0 : I s events) (hI : ∀ s events, I s events → Does c (body s) (fun
      | .ok (.inl s), events => I s events
      | .ok (.inr a), events => R (.ok a) events
      | .error e, events => R (.error e) events) events) :
    Does c (forever body s) R events := by
  apply ensures_forever (fun s events => Broken events ∨ I s events) (.inr h0)
  intro s events h
  have hbody : Does c (body s) (fun
      | .ok (.inl s), events => I s events
      | .ok (.inr a), events => R (.ok a) events
      | .error e, events => R (.error e) events) events := by
    rcases h with hbroken | h
    · exact does_of_broken hbroken
    · exact hI s events h
  refine Ensures.mono hbody fun r events h => ?_
  cases r with
  | ok r =>
    cases r with
    | inl s => exact h
    | inr a => exact h
  | error e => exact h

theorem does_withFinally {body : ExceptT ε (Code T) (Bool × α)} {cleanup : ExceptT ε (Code T) Unit}
    (h : Does c body (fun
      | .ok (false, a), events => R (.ok a) events
      | .ok (true, a), events => Does c cleanup (fun r events => R (r.map fun _ => a) events) events
      | .error e, events =>
        Does c cleanup (fun r events => R (r.bind fun _ => .error e) events) events) events) :
    Does c (withFinally body cleanup) R events := by
  apply ensures_withFinally
  refine Ensures.mono h fun r events h => ?_
  cases r with
  | ok r =>
    obtain ⟨failed, a⟩ := r
    cases failed with
    | false => exact h
    | true =>
      rcases h with hbroken | h
      · exact does_of_broken (m := cleanup) hbroken
      · exact h
  | error e =>
    rcases h with hbroken | h
    · exact does_of_broken (m := cleanup) hbroken
    · exact h

theorem does_pure {a : α} (h : R (.ok a) events) :
    Does c (pure a : ExceptT ε (Code T) α) R events := .inr h

theorem does_throw {e : ε} (h : R (.error e) events) :
    Does c (throw e : ExceptT ε (Code T) α) R events := .inr h

theorem does_op {o : Op T} {R : Except Unchecked (o.Answer T) → Events T → Prop}
    (hallowed : Allowed c o events) (h : ∀ a, R (.ok a) (⟨o, a⟩ :: events)) :
    Does c (op o) R events := ensures_op.mpr ⟨.inr hallowed, fun a => .inr (h a)⟩

theorem does_op_seq {o : Op T} {f : o.Answer T → Method T β}
    {Q : Except Unchecked β → Events T → Prop} (hallowed : Allowed c o events)
    (h : ∀ a, Does c (f a) Q (⟨o, a⟩ :: events)) :
    Does c (op o >>= f : Method T β) Q events := ensures_op_seq (.inr hallowed) h

theorem does_lift {m : Method T α} {R : Except Thrown α → Events T → Prop} :
    Does c (lift m) R events ↔ Does c m (fun r events => R (r.mapError .unchecked) events) events :=
  ensures_unchecked

theorem does_lift_seq {m : Method T α} {f : α → Interruptible T β}
    {R : Except Unchecked α → Events T → Prop} {Q : Except Thrown β → Events T → Prop}
    (hm : Does c m R events)
    (herror : ∀ e events, R (.error e) events → Q (.error (.unchecked e)) events)
    (hok : ∀ a events, R (.ok a) events → Does c (f a) Q events) :
    Does c (lift m >>= f : Interruptible T β) Q events := by
  apply ensures_lift_seq hm
  · exact fun e events h => h.imp_right (herror e events)
  · intro a events h
    rcases h with hbroken | h
    · exact does_of_broken hbroken
    · exact hok a events h

end Does

end BigPlan.QueuedSynchronizer
