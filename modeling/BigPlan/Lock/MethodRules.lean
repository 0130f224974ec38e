import BigPlan.Lock.QueuedSynchronizer

/-!
# What the methods do

Most methods only read and write fields. Those that link a node into the queue neither read a
`waitStatus` nor wait; few look at the interrupt flag, cancel a wait, or call the subclass; and
many leave the links of the queue as they are.
-/
namespace BigPlan.QueuedSynchronizer

open Lib Lib.Java Program Node

variable {T : Type}

/-- An operation that neither appends a node, nor cancels a wait, nor deals with interrupts. -/
def Quiet : Op T → Prop
  | .compareAndSet _ _ _ purpose | .compareAndSetWaitStatus _ _ _ purpose => purpose = .other
  | .interrupted | .selfInterrupt => False
  | _ => True

/-- An operation by which a node is made or linked. -/
def Linking : Op T → Prop
  | .set .head _ => False
  | .get _ | .set _ _ | .compareAndSet _ _ _ _ | .newNode _ _ _ => True
  | _ => False

/-- An operation that neither cancels a wait nor deals with interrupts. -/
def Calm : Op T → Prop
  | .compareAndSetWaitStatus _ _ _ purpose => purpose = .other
  | .interrupted | .selfInterrupt => False
  | _ => True

/-- An operation that makes no node, leaves the links of the queue, marks no node as cancelled or as
waiting in the condition queue, and does not deal with interrupts. -/
def Inert : Op T → Prop
  | .set .firstWaiter _ | .set .lastWaiter _ | .set (.nextWaiter _) _ => True
  | .set (.next _) v => v = none
  | .compareAndSetWaitStatus _ expect update purpose =>
    expect ≤ 0 ∧ update ≤ 0 ∧ update ≠ CONDITION ∧ purpose = .other
  | .set _ _ | .compareAndSet _ _ _ _ | .setWaitStatus _ _ | .newNode _ _ _ => False
  | .interrupted | .selfInterrupt => False
  | _ => True

theorem Inert.quiet {o : Op T} (h : Inert o) : Quiet o := by
  cases o with
  | set | setWaitStatus | newNode => trivial
  | compareAndSet => exact h.elim
  | compareAndSetWaitStatus => exact h.2.2.2
  | _ => exact h

theorem Quiet.calm {o : Op T} (h : Quiet o) : Calm o := by
  cases o with
  | compareAndSet => trivial
  | _ => exact h

theorem Linking.calm {o : Op T} (h : Linking o) : Calm o := by
  cases o with
  | get | set | compareAndSet | newNode => trivial
  | _ => exact h.elim

section Only

variable {K : Op T → Prop} {α : Type} {node : Ref}

theorem only_op {o : Op T} (h : K o) : Only K (op o) := only_lift ⟨h, fun _ => trivial⟩

theorem only_ite {ε : Type} {c : Prop} {_ : Decidable c} {m m' : ExceptT ε (Code T) α} (h : Only K m)
    (h' : Only K m') : Only K (if c then m else m' : ExceptT ε (Code T) α) := by
  split
  · exact h
  · exact h'

theorem only_cases {ε : Type} {c : Prop} {_ : Decidable c} {m m' : ExceptT ε (Code T) α}
    (h : c → Only K m) (h' : ¬ c → Only K m') :
    Only K (if c then m else m' : ExceptT ε (Code T) α) := by
  split
  · exact h ‹_›
  · exact h' ‹_›

/-- A compare-and-set of a `waitStatus` that was not positive. -/
theorem only_compareAndSetWaitStatus {ws update : ℤ} (h : ws ≤ 0) (hupdate : update ≤ 0)
    (hne : update ≠ CONDITION) :
    Only Inert (compareAndSetWaitStatus node ws update .other : Method T Bool) :=
  only_op ⟨h, hupdate, hne, rfl⟩

theorem only_deref (r : Option Ref) : Only K (deref r : Method T Ref) := by
  cases r with
  | none => exact only_throw
  | some n => exact only_pure

theorem only_predecessor : Only Linking (predecessor node : Method T Ref) :=
  only_then (only_op trivial) fun p => only_deref p

theorem only_setHead : Only Quiet (setHead node : Method T Unit) :=
  only_then (only_op trivial) fun _ => only_then (only_op trivial) fun _ => only_op trivial

theorem only_closestFromTail : Only Inert (closestFromTail node : Method T (Option Ref)) := by
  refine only_then (only_op trivial) fun t => only_forever ?_ _
  intro cursor
  obtain ⟨t, s⟩ := cursor
  cases t with
  | none => exact only_pure
  | some t =>
    refine only_ite only_pure ?_
    exact only_then (only_op trivial) fun ws => only_then (only_op trivial) fun prev => only_pure

theorem only_absentOrCancelled (s : Option Ref) :
    Only Inert (absentOrCancelled s : Method T Bool) := by
  cases s with
  | none => exact only_pure
  | some s => exact only_then (only_op trivial) fun ws => only_pure

theorem only_unparkThread (s : Option Ref) : Only Inert (unparkThread s : Method T Unit) := by
  cases s with
  | none => exact only_pure
  | some s => exact only_then (only_op trivial) fun thread => only_op trivial

theorem only_unparkSuccessor : Only Inert (unparkSuccessor node : Method T Unit) := by
  refine only_then (only_op trivial) fun ws => ?_
  refine only_then (only_cases (fun hws => ?_) fun _ => only_pure) fun _ => ?_
  · exact only_compareAndSetWaitStatus (Int.le_of_lt hws) (by decide) (by decide)
  refine only_then (only_op trivial) fun s => only_then (only_absentOrCancelled s) fun absent => ?_
  exact only_ite (only_then only_closestFromTail only_unparkThread) (only_unparkThread s)

theorem only_releaseHead (h : Option Ref) : Only Inert (releaseHead h : Method T Bool) := by
  cases h with
  | none => exact only_pure
  | some h =>
    refine only_then (only_op trivial) fun tail => only_ite only_pure ?_
    refine only_then (only_op trivial) fun ws => only_ite ?_ (only_ite ?_ only_pure)
    · refine only_then (only_compareAndSetWaitStatus (by decide) (by decide) (by decide)) ?_
      exact fun done => only_ite (only_then only_unparkSuccessor fun _ => only_pure) only_pure
    · refine only_then (only_compareAndSetWaitStatus (by decide) (by decide) (by decide)) ?_
      exact fun done => only_pure

theorem only_doReleaseShared : Only Inert (doReleaseShared : Method T Unit) := by
  refine only_forever ?_ _
  intro _
  refine only_then (only_op trivial) fun h => only_then (only_releaseHead h) fun again => ?_
  exact only_ite only_pure (only_then (only_op trivial) fun head => only_pure)

theorem only_absentOrNegative (h : Option Ref) :
    Only Inert (absentOrNegative h : Method T Bool) := by
  cases h with
  | none => exact only_pure
  | some h => exact only_then (only_op trivial) fun ws => only_pure

/-- What follows on `setHead` in `setHeadAndPropagate`. -/
theorem only_propagate {propagate : ℤ} (h : Option Ref) : Only Inert (do
    if ← propagates h propagate then
      let s ← get (.next node)
      match s with
      | none => doReleaseShared
      | some s => if ← isShared s then doReleaseShared : Method T Unit) := by
  refine only_then (only_ite only_pure ?_) fun propagates => only_ite ?_ only_pure
  · refine only_then (only_absentOrNegative h) fun absent => only_ite only_pure ?_
    exact only_then (only_op trivial) fun h => only_absentOrNegative h
  · refine only_then (only_op trivial) fun s => ?_
    cases s with
    | none => exact only_doReleaseShared
    | some s =>
      refine only_then (only_then (only_op trivial) fun nextWaiter => only_pure) fun shared => ?_
      exact only_ite only_doReleaseShared only_pure

theorem only_setHeadAndPropagate {propagate : ℤ} :
    Only Quiet (setHeadAndPropagate node propagate : Method T Unit) := by
  refine only_then (only_op trivial) fun h => only_then only_setHead fun _ => ?_
  exact (only_propagate h).mono fun _ => Inert.quiet

theorem only_skipCancelled {pred : Option Ref} :
    Only Quiet (skipCancelled node pred : Method T Ref) := by
  refine only_forever ?_ _
  intro pred
  refine only_then (only_deref pred) fun pred => only_then (only_op trivial) fun ws => ?_
  refine only_ite ?_ only_pure
  exact only_then (only_op trivial) fun pred => only_then (only_op trivial) fun _ => only_pure

theorem only_signals {pred : Ref} : Only Inert (signals pred : Method T Bool) := by
  refine only_then (only_op trivial) fun head => only_ite only_pure ?_
  refine only_then (only_op trivial) fun ws => ?_
  refine only_then (only_ite only_pure (only_cases (fun hws => ?_) fun _ => only_pure)) ?_
  · exact only_compareAndSetWaitStatus hws (by decide) (by decide)
  · exact fun signal => only_ite (only_then (only_op trivial) fun thread => only_pure) only_pure

theorem only_bypass {pred : Ref} {predNext : Option Ref} :
    Only Quiet (bypass node pred predNext : Method T Unit) := by
  refine only_then (only_signals.mono fun _ => Inert.quiet) fun signals => only_ite ?_ ?_
  swap
  · exact only_unparkSuccessor.mono fun _ => Inert.quiet
  refine only_then (only_op trivial) fun next => ?_
  cases next with
  | none => exact only_pure
  | some next =>
    refine only_then (only_op trivial) fun ws => ?_
    exact only_then (only_ite (only_op rfl) only_pure) fun _ => only_pure

theorem only_cancelAcquire : Only Quiet (cancelAcquire node : Method T Unit) := by
  refine only_then (only_op trivial) fun _ => only_then (only_op trivial) fun pred => ?_
  refine only_then only_skipCancelled fun pred => only_then (only_op trivial) fun predNext => ?_
  refine only_then (only_op trivial) fun _ => only_then (only_op trivial) fun tail => ?_
  refine only_then (only_ite (only_op rfl) only_pure) fun removed => only_ite ?_ ?_
  · exact only_then (only_op rfl) fun _ => only_pure
  · exact only_then only_bypass fun _ => only_op trivial

theorem only_shouldParkAfterFailedAcquire {pred : Ref} :
    Only Quiet (shouldParkAfterFailedAcquire pred node : Method T Bool) := by
  refine only_then (only_op trivial) fun ws => only_ite only_pure (only_ite ?_ ?_)
  · refine only_then (only_op trivial) fun pred => only_then (only_op trivial) fun _ => ?_
    exact only_then only_skipCancelled fun pred => only_then (only_op trivial) fun _ => only_pure
  · exact only_then (only_op rfl) fun _ => only_pure

theorem only_answered (a : Option α) : Only K (answered a : Method T α) := by
  cases a with
  | none => exact only_throw
  | some a => exact only_pure

theorem only_release {arg : ℤ} : Only Inert (release arg : Method T Bool) := by
  refine only_then (only_then (only_op trivial) only_answered) fun released => ?_
  refine only_ite (only_then (only_op trivial) fun h => ?_) only_pure
  cases h with
  | none => exact only_pure
  | some h =>
    refine only_then (only_op trivial) fun ws => ?_
    exact only_then (only_ite only_unparkSuccessor only_pure) fun _ => only_pure

theorem only_enq : Only Linking (enq node : Method T Ref) := by
  refine only_forever ?_ _
  intro _
  refine only_then (only_op trivial) fun t => ?_
  cases t with
  | none =>
    refine only_then (only_op trivial) fun h => only_then (only_op trivial) fun set => ?_
    refine only_ite (only_then (only_op trivial) fun h => ?_) only_pure
    exact only_then (only_op trivial) fun _ => only_pure
  | some t =>
    refine only_then (only_op trivial) fun _ => only_then (only_op trivial) fun set => ?_
    exact only_ite (only_then (only_op trivial) fun _ => only_pure) only_pure

theorem only_addWaiter {t : T} {mode : Option Ref} :
    Only Linking (addWaiter t mode : Method T Ref) := by
  refine only_then (only_op trivial) fun node => only_then (only_op trivial) fun pred => ?_
  have henq : Only Linking (enq node >>= fun _ => pure node : Method T Ref) :=
    only_then only_enq fun _ => only_pure
  cases pred with
  | none => exact henq
  | some pred =>
    refine only_then (only_op trivial) fun _ => only_then (only_op trivial) fun set => ?_
    exact only_ite (only_then (only_op trivial) fun _ => only_pure) henq

theorem only_unlinkCancelledWaiters : Only Inert (unlinkCancelledWaiters : Method T Unit) := by
  refine only_then (only_op trivial) fun t => only_forever ?_ _
  intro cursor
  obtain ⟨t, trail⟩ := cursor
  cases t with
  | none => exact only_pure
  | some t =>
    refine only_then (only_op trivial) fun next => only_then (only_op trivial) fun ws => ?_
    refine only_ite (only_then (only_op trivial) fun _ => ?_) only_pure
    refine only_then (only_op (by cases trail <;> trivial)) fun _ => ?_
    exact only_then (only_ite (only_op trivial) only_pure) fun _ => only_pure

theorem only_lastWaiting (last : Option Ref) :
    Only Inert (lastWaiting last : Method T (Option Ref)) := by
  cases last with
  | none => exact only_pure
  | some last =>
    refine only_then (only_op trivial) fun ws => only_ite ?_ only_pure
    exact only_then only_unlinkCancelledWaiters fun _ => only_op trivial

end Only

/-! ## Methods that do not throw -/

section Succeeds

variable {α : Type} {node : Ref}

theorem succeeds_op {o : Op T} : Succeeds (op o) := succeeds_call

theorem succeeds_ite {c : Prop} {_ : Decidable c} {m m' : Method T α} (h : Succeeds m)
    (h' : Succeeds m') : Succeeds (if c then m else m' : Method T α) := by
  split
  · exact h
  · exact h'

theorem succeeds_closestFromTail :
    Succeeds (closestFromTail node : Method T (Option Ref)) := by
  refine succeeds_then succeeds_op fun t => succeeds_forever ?_ _
  intro cursor
  obtain ⟨t, s⟩ := cursor
  cases t with
  | none => exact succeeds_pure
  | some t =>
    refine succeeds_ite succeeds_pure ?_
    exact succeeds_then succeeds_op fun ws => succeeds_then succeeds_op fun prev => succeeds_pure

theorem succeeds_unparkThread (s : Option Ref) : Succeeds (unparkThread s : Method T Unit) := by
  cases s with
  | none => exact succeeds_pure
  | some s => exact succeeds_then succeeds_op fun thread => succeeds_op

theorem succeeds_unparkSuccessor : Succeeds (unparkSuccessor node : Method T Unit) := by
  refine succeeds_then succeeds_op fun ws => ?_
  refine succeeds_then (succeeds_ite succeeds_op succeeds_pure) fun _ => ?_
  refine succeeds_then succeeds_op fun s => succeeds_then ?_ fun absent => ?_
  · cases s with
    | none => exact succeeds_pure
    | some s => exact succeeds_then succeeds_op fun ws => succeeds_pure
  · apply succeeds_ite _ (succeeds_unparkThread s)
    exact succeeds_then succeeds_closestFromTail succeeds_unparkThread

theorem succeeds_doReleaseShared : Succeeds (doReleaseShared : Method T Unit) := by
  refine succeeds_forever (fun _ => succeeds_then succeeds_op fun h => succeeds_then ?_ ?_) _
  · cases h with
    | none => exact succeeds_pure
    | some h =>
      refine succeeds_then succeeds_op fun tail => succeeds_ite succeeds_pure ?_
      refine succeeds_then succeeds_op fun ws => succeeds_ite ?_ (succeeds_ite ?_ succeeds_pure)
      · refine succeeds_then succeeds_op fun done => succeeds_ite ?_ succeeds_pure
        exact succeeds_then succeeds_unparkSuccessor fun _ => succeeds_pure
      · exact succeeds_then succeeds_op fun done => succeeds_pure
  · exact fun again => succeeds_ite succeeds_pure (succeeds_then succeeds_op fun _ => succeeds_pure)

theorem succeeds_propagates {propagate : ℤ} (h : Option Ref) :
    Succeeds (propagates h propagate : Method T Bool) := by
  have habsent : ∀ h : Option Ref, Succeeds (absentOrNegative h : Method T Bool) := by
    intro h
    cases h with
    | none => exact succeeds_pure
    | some h => exact succeeds_then succeeds_op fun ws => succeeds_pure
  refine succeeds_ite succeeds_pure (succeeds_then (habsent h) fun absent => ?_)
  exact succeeds_ite succeeds_pure (succeeds_then succeeds_op habsent)

theorem succeeds_propagate {propagate : ℤ} (h : Option Ref) : Succeeds (do
    if ← propagates h propagate then
      let s ← get (.next node)
      match s with
      | none => doReleaseShared
      | some s => if ← isShared s then doReleaseShared : Method T Unit) := by
  refine succeeds_then (succeeds_propagates h) fun propagates => succeeds_ite ?_ succeeds_pure
  refine succeeds_then succeeds_op fun s => ?_
  cases s with
  | none => exact succeeds_doReleaseShared
  | some s =>
    refine succeeds_then (succeeds_then succeeds_op fun nextWaiter => succeeds_pure) fun shared => ?_
    exact succeeds_ite succeeds_doReleaseShared succeeds_pure

end Succeeds

/-! ## Single operations -/

variable {Safe : Op T → Events T → Prop} {events : Events T}

theorem ensures_op {o : Op T} {Q : Except Unchecked (o.Answer T) → Events T → Prop} :
    Ensures Safe (op o) Q events ↔ Safe o events ∧ ∀ a, Q (.ok a) (⟨o, a⟩ :: events) :=
  ensures_lift

theorem ensures_op_seq {o : Op T} {β : Type} {f : o.Answer T → Method T β}
    {Q : Except Unchecked β → Events T → Prop} (hsafe : Safe o events)
    (h : ∀ a, Ensures Safe (f a) Q (⟨o, a⟩ :: events)) :
    Ensures Safe (op o >>= f : Method T β) Q events :=
  ensures_then.mpr (ensures_op.mpr ⟨hsafe, h⟩)

theorem ensures_unchecked {α : Type} {m : Method T α} {Q : Except Thrown α → Events T → Prop} :
    Ensures Safe (lift m) Q events ↔
      Ensures Safe m (fun r events => Q (r.mapError .unchecked) events) events :=
  ensures_mapError

/-- The rule of composition, after a method that does not throw `InterruptedException`. -/
theorem ensures_lift_seq {α β : Type} {m : Method T α} {f : α → Interruptible T β}
    {R : Except Unchecked α → Events T → Prop} {Q : Except Thrown β → Events T → Prop}
    (hm : Ensures Safe m R events)
    (herror : ∀ e events, R (.error e) events → Q (.error (.unchecked e)) events)
    (hok : ∀ a events, R (.ok a) events → Ensures Safe (f a) Q events) :
    Ensures Safe (lift m >>= f : Interruptible T β) Q events := by
  refine ensures_then.mpr (ensures_unchecked.mpr (hm.mono fun r events hr => ?_))
  cases r with
  | ok a => exact hok a events hr
  | error e => exact herror e events hr

/-- A method of the subclass returns what it has answered. -/
theorem ensures_answered {α : Type} {a : Option α} {Q : Except Unchecked α → Events T → Prop}
    (hthrow : Q (.error .subclass) events) (h : ∀ b, a = some b → Q (.ok b) events) :
    Ensures Safe (answered a : Method T α) Q events := by
  cases a with
  | none => exact hthrow
  | some b => exact h b rfl

end BigPlan.QueuedSynchronizer
