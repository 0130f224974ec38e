import BigPlan.Lock.MethodRules
import BigPlan.Lock.Threads

/-!
# Shared acquires

A call that returns has acquired: one of its calls of `tryAcquireShared` has returned no negative
value. `doAcquireSharedInterruptibly` has no loop, so `acquireSharedInterruptibly` returns after
one attempt and one wait, whatever has become of them. It is right as long as it finds that it has
to park, and leaves the park because it is interrupted.
-/
namespace BigPlan.QueuedSynchronizer

open Lib Lib.Java Lib.Runs Program Node

variable {T : Type}

/-- Some call of `tryAcquireShared(arg)` has returned a value `>= 0`. -/
def GotShared (arg : ℤ) (events : Events T) : Prop :=
  ∃ r : ℤ, 0 ≤ r ∧ ⟨.tryAcquireShared arg, some r⟩ ∈ events

/-- Some call of `tryAcquire(arg)` has returned true. -/
def Got (arg : ℤ) (events : Events T) : Prop := ⟨.tryAcquire arg, some true⟩ ∈ events

/-- `Thread.interrupted()` has returned true. -/
def SawInterrupt (events : Events T) : Prop := ⟨.interrupted, true⟩ ∈ events

def Unread (events : Events T) : Prop := ∀ node (ws : ℤ), ⟨.getWaitStatus node, ws⟩ ∉ events

def Parked (events : Events T) : Prop := ⟨.park, ()⟩ ∈ events

/-- The call goes on without having acquired: it does not find that it has to park, or it was not
interrupted when it has parked. -/
inductive Slips (arg : ℤ) (events : Events T) : Event (Op T) (Op.Answer T) → Prop where
  | unsignalled {node : Ref} {ws : ℤ} (hgot : ¬ GotShared arg events) (hunread : Unread events)
    (hws : ws ≠ SIGNAL) : Slips arg events ⟨.getWaitStatus node, ws⟩
  | uninterrupted (hgot : ¬ GotShared arg events) (hparked : Parked events) :
    Slips arg events ⟨.interrupted, false⟩

inductive Slipped (arg : ℤ) : Events T → Prop where
  | here {e : Event (Op T) (Op.Answer T)} {events : Events T} (h : Slips arg events e) :
    Slipped arg (e :: events)
  | earlier {e : Event (Op T) (Op.Answer T)} {events : Events T} (h : Slipped arg events) :
    Slipped arg (e :: events)

/-- The call has acquired, or it goes on as it should not. -/
def Passed (arg : ℤ) (events : Events T) : Prop := GotShared arg events ∨ Slipped arg events

section Calls

variable {Safe : Op T → Events T → Prop} {events events' : Events T} {arg : ℤ} {node p : Ref}
  {K : Op T → Prop}

theorem GotShared.of_grows (h : GotShared arg events) (hg : Grows K events events') :
    GotShared arg events' := by
  obtain ⟨r, hr, hmem⟩ := h
  exact ⟨r, hr, hg.subset hmem⟩

theorem Slipped.of_grows (h : Slipped arg events) (hg : Grows K events events') :
    Slipped arg events' := by
  obtain ⟨new, rfl, -⟩ := hg
  induction new with
  | nil => exact h
  | cons e new ih => exact .earlier ih

theorem Passed.of_grows (h : Passed arg events) (hg : Grows K events events') :
    Passed arg events' := h.imp (fun h => h.of_grows hg) fun h => h.of_grows hg

theorem passed_of_slips {e : Event (Op T) (Op.Answer T)}
    (h : ¬ GotShared arg events → Slips arg events e) : Passed arg (e :: events) := by
  by_cases hgot : GotShared arg events
  · obtain ⟨r, hr, hmem⟩ := hgot
    exact .inl ⟨r, hr, List.mem_cons_of_mem _ hmem⟩
  · exact .inr (.here (h hgot))

theorem unread_nil : Unread ([] : Events T) := fun _ _ => List.not_mem_nil

theorem Unread.of_grows (h : Unread events) (hg : Grows Linking events events') :
    Unread events' := fun n ws hmem => h n ws (hg.mem hmem id)

theorem Unread.cons (h : Unread events) {o : Op T} (ho : ∀ n, o ≠ .getWaitStatus n)
    (a : o.Answer T) : Unread (⟨o, a⟩ :: events) := by
  intro n ws hmem
  rcases List.mem_cons.mp hmem with heq | hmem
  · exact ho n (congrArg Event.op heq).symm
  · exact h n ws hmem

theorem Calm.ne_selfInterrupt {o : Op T} (h : Calm o) : o ≠ .selfInterrupt := by
  intro ho
  rw [ho] at h
  exact h

variable (hsafe : ∀ o events, o ≠ .selfInterrupt → Safe o events)
include hsafe

theorem ensures_calm {α : Type} {m : Code T α} (hK : ∀ o, K o → Calm o) (h : Only K m) :
    Ensures Safe m (fun _ => Grows K events) events :=
  h.grows fun o events ho => hsafe o events (hK o ho).ne_selfInterrupt

theorem tryAcquireShared_ensures : Ensures Safe (tryAcquireShared arg) (fun r events' =>
    ∀ a, r = .ok a → events' = ⟨.tryAcquireShared arg, some a⟩ :: events) events := by
  refine ensures_op_seq (hsafe _ _ nofun) fun a => ?_
  refine ensures_answered nofun fun b hb => ?_
  intro a ha
  cases ha
  rw [hb]

theorem tryAcquire_ensures : Ensures Safe (tryAcquire arg) (fun r events' =>
    ∀ a, r = .ok a → events' = ⟨.tryAcquire arg, some a⟩ :: events) events := by
  refine ensures_op_seq (hsafe _ _ nofun) fun a => ?_
  refine ensures_answered nofun fun b hb => ?_
  intro a ha
  cases ha
  rw [hb]

/-- An attempt that succeeds has acquired. -/
theorem attempt_ensures : Ensures Safe (attempt p node arg) (fun r events' =>
    r = .ok true → Got arg events') events := by
  refine ensures_op_seq (hsafe _ _ nofun) fun head => ?_
  split
  · refine ensures_seq (tryAcquire_ensures hsafe) nofun fun acquired events' htry => ?_
    split
    · refine ensures_seq (ensures_calm hsafe (fun _ => Quiet.calm) only_setHead) nofun ?_
      intro _ events'' hg
      refine ensures_op_seq (hsafe _ _ nofun) fun _ _ => ?_
      refine List.mem_cons_of_mem _ (hg.subset ?_)
      subst acquired
      rw [htry true rfl]
      exact List.mem_cons_self
    · exact nofun
  · exact nofun

/-- An attempt that succeeds has acquired, and after one that fails no `waitStatus` was read. -/
theorem attemptShared_ensures : Ensures Safe (attemptShared p node arg) (fun r events' =>
    (r = .ok true → GotShared arg events') ∧ (r = .ok false → Unread events → Unread events'))
    events := by
  refine ensures_op_seq (hsafe _ _ nofun) fun head => ?_
  split
  · refine ensures_seq (tryAcquireShared_ensures hsafe) (fun _ _ _ => ⟨nofun, nofun⟩) ?_
    intro r events' htry
    have hevents' := htry r rfl
    subst hevents'
    split
    · rename_i hr
      have hgot : GotShared arg (⟨.tryAcquireShared arg, some r⟩ :: ⟨.get .head, head⟩ :: events) :=
        ⟨r, hr, List.mem_cons_self⟩
      refine ensures_seq (ensures_calm hsafe (fun _ => Quiet.calm) only_setHeadAndPropagate)
        (fun _ _ _ => ⟨nofun, nofun⟩) fun _ events'' hg => ?_
      refine ensures_op_seq (hsafe _ _ nofun) fun _ => ⟨fun _ => ?_, nofun⟩
      exact hgot.of_grows (hg.step (show Quiet (.set (.next p) none) from trivial) ())
    · exact ⟨nofun, fun _ hunread => (hunread.cons (by nofun) _).cons (by nofun) _⟩
  · exact ⟨nofun, fun _ hunread => hunread.cons (by nofun) _⟩

theorem shouldParkAfterFailedAcquire_ensures (arg : ℤ) (hunread : Unread events) :
    Ensures Safe (shouldParkAfterFailedAcquire p node) (fun r events' =>
      r = .ok false → Passed arg events') events := by
  refine ensures_op_seq (hsafe _ _ nofun) fun ws => ?_
  split
  · exact nofun
  · rename_i hws
    have hpassed : Passed arg (⟨.getWaitStatus p, ws⟩ :: events) :=
      passed_of_slips fun hgot => .unsignalled hgot hunread hws
    refine (ensures_calm hsafe (fun _ => Quiet.calm) ?_).mono fun _ _ hg _ => hpassed.of_grows hg
    refine only_ite ?_ (only_then (only_op rfl) fun _ => only_pure)
    refine only_then (only_op trivial) fun pred => only_then (only_op trivial) fun _ => ?_
    exact only_then only_skipCancelled fun pred => only_then (only_op trivial) fun _ => only_pure

theorem parkAndCheckInterrupt_ensures (arg : ℤ) :
    Ensures Safe parkAndCheckInterrupt (fun r events' =>
      (r = .ok true → SawInterrupt events') ∧ (r = .ok false → Passed arg events')) events := by
  refine ensures_op_seq (hsafe _ _ nofun) fun _ => ?_
  refine ensures_op.mpr ⟨hsafe _ _ nofun, fun saw => ?_⟩
  cases saw with
  | true => exact ⟨fun _ => List.mem_cons_self, nofun⟩
  | false =>
    exact ⟨nofun, fun _ => passed_of_slips fun hgot => .uninterrupted hgot List.mem_cons_self⟩

/-- An interrupt is seen, or the call slips if it goes on. -/
theorem parksInterrupted_ensures (arg : ℤ) (hunread : Unread events) :
    Ensures Safe (parksInterrupted p node) (fun r events' =>
      (r = .ok true → SawInterrupt events') ∧ (r = .ok false → Passed arg events')) events := by
  refine ensures_seq (shouldParkAfterFailedAcquire_ensures hsafe arg hunread)
    (fun _ _ _ => ⟨nofun, nofun⟩) fun parks events' hparks => ?_
  split
  · exact parkAndCheckInterrupt_ensures hsafe arg
  · rename_i hno
    exact ⟨nofun, fun _ => hparks (congrArg _ (by simpa using hno))⟩

/-! ## The methods that wait -/

/-- What holds of a returned value, and what of an `InterruptedException`. -/
def Ends {α : Type} (Q : α → Events T → Prop) (r : Except Thrown α) (events : Events T) : Prop :=
  (∀ a, r = .ok a → Q a events) ∧ (r = .error .interruptedException → SawInterrupt events)

omit hsafe in
theorem ends_unchecked {α : Type} {Q : α → Events T → Prop} {e : Unchecked} :
    Ends Q (.error (.unchecked e)) events := ⟨nofun, nofun⟩

omit hsafe in
theorem ends_ok {α : Type} {Q : α → Events T → Prop} {a : α} (h : Q a events) :
    Ends Q (.ok a) events := by
  refine ⟨fun b hb => ?_, nofun⟩
  cases hb
  exact h

omit hsafe in
theorem ends_interrupted {α : Type} {Q : α → Events T → Prop} (h : SawInterrupt events) :
    Ends Q (.error .interruptedException) events := ⟨nofun, fun _ => h⟩

/-- Cancelling the node changes nothing about how the body ends. -/
theorem ensures_cancelling {α : Type} {body : Interruptible T (Bool × α)}
    {Q : α → Events T → Prop}
    (hQ : ∀ a {events events'}, Q a events → Grows Quiet events events' → Q a events')
    (h : Ensures Safe body (Ends fun b events => Q b.2 events) events) :
    Ensures Safe (withFinally body (lift (cancelAcquire node))) (Ends Q) events := by
  have hcancel : ∀ events, Ensures Safe (cancelAcquire node : Method T Unit)
      (fun _ => Grows Quiet events) events := fun _ =>
    ensures_calm hsafe (fun _ => Quiet.calm) only_cancelAcquire
  refine ensures_withFinally (h.mono fun r events hr => ?_)
  cases r with
  | error e =>
    refine ensures_unchecked.mpr ((hcancel events).mono fun r events' hg => ?_)
    cases r with
    | ok _ =>
      refine ⟨nofun, fun he => hg.subset (hr.2 ?_)⟩
      cases he
      rfl
    | error _ => exact ends_unchecked
  | ok b =>
    obtain ⟨failed, a⟩ := b
    cases failed with
    | false => exact ends_ok (hr.1 _ rfl)
    | true =>
      refine ensures_unchecked.mpr ((hcancel events).mono fun r events' hg => ?_)
      cases r with
      | ok _ => exact ends_ok (hQ a (hr.1 _ rfl) hg)
      | error _ => exact ends_unchecked

theorem doAcquireSharedInterruptibly_ensures {t : T} (hunread : Unread events) :
    Ensures Safe (doAcquireSharedInterruptibly t arg) (Ends fun _ => Passed arg) events := by
  refine ensures_lift_seq (ensures_calm hsafe (fun _ => Linking.calm) only_addWaiter)
    (fun _ _ _ => ends_unchecked) fun node events hg => ?_
  have hunread := hunread.of_grows hg
  refine ensures_cancelling hsafe (fun _ {_ _} h hg => h.of_grows hg) ?_
  refine ensures_lift_seq (ensures_calm hsafe (fun _ => Linking.calm) only_predecessor)
    (fun _ _ _ => ends_unchecked) fun p events hg => ?_
  have hunread := hunread.of_grows hg
  refine ensures_lift_seq (attemptShared_ensures hsafe) (fun _ _ _ => ends_unchecked) ?_
  intro acquired events hattempt
  cases acquired with
  | true => exact ends_ok (.inl (hattempt.1 rfl))
  | false =>
    refine ensures_lift_seq (parksInterrupted_ensures hsafe arg (hattempt.2 rfl hunread))
      (fun _ _ _ => ends_unchecked) fun saw events hparks => ?_
    cases saw with
    | true => exact ends_interrupted (hparks.1 rfl)
    | false => exact ends_ok (hparks.2 rfl)

omit hsafe in
/-- The method throws if the thread was interrupted, and otherwise goes on. -/
theorem interrupted_seq {α : Type} {f : Interruptible T α} {Q : Except Thrown α → Events T → Prop}
    (hsafe : ∀ o events, o ≠ .selfInterrupt → Safe o events)
    (hthrow : Q (.error .interruptedException) (⟨.interrupted, true⟩ :: events))
    (h : Ensures Safe f Q (⟨.interrupted, false⟩ :: events)) :
    Ensures Safe (lift threadInterrupted >>= fun interrupted =>
      if interrupted then throw .interruptedException else f : Interruptible T α) Q events := by
  refine ensures_then.mpr (ensures_unchecked.mpr (ensures_op.mpr ⟨hsafe _ _ nofun, ?_⟩))
  intro interrupted
  cases interrupted with
  | true => exact hthrow
  | false => exact h

/-- The rest of a turn ends with the exception only if the thread was interrupted. -/
theorem parkNanosBefore_ensures {deadline : JLong} :
    Ensures Safe (parkNanosBefore deadline p node) (Ends fun _ _ => True) events := by
  have hquiet : ∀ o : Op T, Quiet o → Calm o := fun _ => Quiet.calm
  refine ensures_lift_seq (ensures_calm hsafe hquiet (only_op trivial))
    (fun _ _ _ => ends_unchecked) fun now events _ => ?_
  split
  · exact ends_ok trivial
  · refine ensures_lift_seq (ensures_calm hsafe hquiet only_shouldParkAfterFailedAcquire)
      (fun _ _ _ => ends_unchecked) fun parks events _ => ?_
    refine ensures_lift_seq (ensures_calm hsafe hquiet (only_ite (only_op trivial) only_pure))
      (fun _ _ _ => ends_unchecked) fun _ events _ => ?_
    exact interrupted_seq hsafe (ends_interrupted List.mem_cons_self) (ends_ok trivial)

theorem doAcquireNanosBy_ensures {mode : Option Ref} {attempt : Ref → Ref → Method T Bool}
    {G : Events T → Prop} {t : T} {nanosTimeout : JLong}
    (hattempt : ∀ p node events, Ensures Safe (attempt p node) (fun r events =>
      r = .ok true → G events) events)
    (hG : ∀ {events events'}, G events → Grows Quiet events events' → G events') :
    Ensures Safe (doAcquireNanosBy mode attempt t nanosTimeout)
      (Ends fun b events => b = true → G events) events := by
  unfold doAcquireNanosBy
  split
  · exact ends_ok nofun
  refine ensures_lift_seq (ensures_calm hsafe (fun _ => Quiet.calm) (only_op trivial))
    (fun _ _ _ => ends_unchecked) fun now events _ => ?_
  refine ensures_lift_seq (ensures_calm hsafe (fun _ => Linking.calm) only_addWaiter)
    (fun _ _ _ => ends_unchecked) fun node events _ => ?_
  refine ensures_cancelling hsafe (fun _ {_ _} h hg hb => hG (h hb) hg) ?_
  refine ensures_forever (fun _ _ => True) trivial fun _ events _ => ?_
  refine ensures_lift_seq (ensures_calm hsafe (fun _ => Linking.calm) only_predecessor)
    (fun _ _ _ => ends_unchecked) fun p events _ => ?_
  refine ensures_lift_seq (hattempt p node events) (fun _ _ _ => ends_unchecked) ?_
  intro acquired events hgot
  have hends : ∀ {events} (b : Bool × Bool), (b.2 = true → G events) →
      Ends (fun b events => b.2 = true → G events) (.ok b) events := by
    intro events b hb
    exact ⟨fun _ h => by cases h; exact hb, nofun⟩
  cases acquired with
  | true => exact hends (false, true) fun _ => hgot rfl
  | false =>
    refine ensures_seq (parkNanosBefore_ensures hsafe) (fun e events he => ?_) ?_
    · refine ⟨nofun, fun h => he.2 ?_⟩
      cases h
      rfl
    · intro again events _
      cases again with
      | true => trivial
      | false => exact hends (true, false) nofun

/-! ## The calls -/

theorem acquireSharedInterruptibly_ensures {t : T} :
    Ensures Safe (acquireSharedInterruptibly t arg) (Ends fun _ => Passed arg) [] := by
  refine interrupted_seq hsafe (ends_interrupted List.mem_cons_self) ?_
  refine ensures_lift_seq (tryAcquireShared_ensures hsafe) (fun _ _ _ => ends_unchecked) ?_
  intro r events htry
  have hevents := htry r rfl
  subst hevents
  split
  · refine doAcquireSharedInterruptibly_ensures hsafe ?_
    exact ((unread_nil.cons (by nofun) _).cons (by nofun) _)
  · rename_i hr
    exact ends_ok (.inl ⟨r, by omega, List.mem_cons_self⟩)

theorem tryAcquireSharedNanos_ensures {t : T} {nanosTimeout : JLong} :
    Ensures Safe (tryAcquireSharedNanos t arg nanosTimeout)
      (Ends fun b events => b = true → GotShared arg events) events := by
  refine interrupted_seq hsafe (ends_interrupted List.mem_cons_self) ?_
  refine ensures_lift_seq (tryAcquireShared_ensures hsafe) (fun _ _ _ => ends_unchecked) ?_
  intro r events htry
  split
  · rename_i hr
    rw [htry r rfl]
    exact ends_ok fun _ => ⟨r, hr, List.mem_cons_self⟩
  · refine doAcquireNanosBy_ensures hsafe (fun p node events => ?_) fun h hg => h.of_grows hg
    exact (attemptShared_ensures hsafe).mono fun _ _ h => h.1

theorem tryAcquireNanos_ensures {t : T} {nanosTimeout : JLong} :
    Ensures Safe (tryAcquireNanos t arg nanosTimeout)
      (Ends fun b events => b = true → Got arg events) events := by
  refine interrupted_seq hsafe (ends_interrupted List.mem_cons_self) ?_
  refine ensures_lift_seq (tryAcquire_ensures hsafe) (fun _ _ _ => ends_unchecked) ?_
  intro acquired events htry
  cases acquired with
  | true =>
    rw [htry true rfl]
    exact ends_ok fun _ => List.mem_cons_self
  | false =>
    exact doAcquireNanosBy_ensures hsafe (fun p node events => attempt_ensures hsafe)
      fun h hg => hg.subset h

omit hsafe in
theorem doAcquireShared_ensures {t : T} :
    Ensures (fun _ _ => True) (doAcquireShared t arg) (fun r events' =>
      r = .ok () → GotShared arg events') events := by
  have hany : ∀ {α : Type} {m : Method T α} {events}, Ensures (fun _ _ => True) m
      (fun _ => Grows (fun _ => True) events) events := only_any.grows fun _ _ _ => trivial
  refine ensures_seq hany (fun _ _ _ => nofun) fun node events' _ => ?_
  have herror : ∀ {e : Unchecked} {events},
      Ensures (fun _ _ => True) (cancelAcquire node : Method T Unit) (fun r events =>
        (r.bind fun _ => .error e) = .ok () → GotShared arg events) events := by
    intro e events
    exact hany.mono fun r _ _ => by cases r <;> nofun
  refine ensures_withFinally (ensures_forever (fun _ _ => True) trivial ?_)
  intro interrupted events _
  refine ensures_seq hany (fun _ _ _ => herror) fun p events _ => ?_
  refine ensures_seq (attemptShared_ensures fun _ _ _ => trivial) (fun _ _ _ => herror) ?_
  intro acquired events hattempt
  split
  · refine ensures_seq hany (fun _ _ _ => herror) fun _ events hg _ => ?_
    exact (hattempt.1 (by simpa)).of_grows hg
  · exact ensures_seq hany (fun _ _ _ => herror) fun _ _ _ => trivial

omit hsafe in
theorem acquireShared_ensures {t : T} :
    Ensures (fun _ _ => True) (acquireShared t arg) (fun r events' =>
      r = .ok () → GotShared arg events') events := by
  refine ensures_seq (tryAcquireShared_ensures fun _ _ _ => trivial) (fun _ _ _ => nofun) ?_
  intro r events' htry
  split
  · exact doAcquireShared_ensures
  · rename_i hr
    intro _
    rw [htry r rfl]
    exact ⟨r, by omega, List.mem_cons_self⟩

end Calls

/-! ## Runs -/

/-- The calls that the rules above are about. -/
def Call.Interruptible : Call → Prop
  | acquireSharedInterruptibly _ | tryAcquireSharedNanos _ _ | tryAcquireNanos _ _ => True
  | _ => False

/-- A call that returns normally, with true if it is timed, has acquired. -/
def Acquired : Call → Except Thrown Value → Events T → Prop
  | .acquireShared arg, .ok _, events => GotShared arg events
  | .acquireSharedInterruptibly arg, .ok _, events => GotShared arg events
  | .tryAcquireSharedNanos arg _, .ok (.boolean true), events => GotShared arg events
  | .tryAcquireNanos arg _, .ok (.boolean true), events => Got arg events
  | _, _, _ => True

/-- What the code of the calls ensures by itself. -/
def Ended : Call → Except Thrown Value → Events T → Prop
  | .acquireShared arg, r, events =>
    (∀ v, r = .ok v → GotShared arg events) ∧ r ≠ .error .interruptedException
  | .acquireSharedInterruptibly arg, r, events => Ends (fun _ => Passed arg) r events
  | .tryAcquireSharedNanos arg _, r, events =>
    Ends (fun v events => v = .boolean true → GotShared arg events) r events
  | .tryAcquireNanos arg _, r, events =>
    Ends (fun v events => v = .boolean true → Got arg events) r events
  | _, _, _ => True

theorem acquired_of_ended {c : Call} {r : Except Thrown Value} {events : Events T}
    (h : Ended c r events)
    (hslipped : ∀ arg, c = .acquireSharedInterruptibly arg → ¬ Slipped arg events) :
    Acquired c r events := by
  unfold Acquired
  split
  · exact h.1 _ rfl
  · exact (h.1 _ rfl).resolve_right (hslipped _ rfl)
  · exact h.1 _ rfl rfl
  · exact h.1 _ rfl rfl
  · trivial

theorem sawInterrupt_of_ended {c : Call} {r : Except Thrown Value} {events : Events T}
    (h : Ended c r events) (hc : c.Interruptible) (hr : r = .error .interruptedException) :
    SawInterrupt events := by
  cases c with
  | acquireSharedInterruptibly | tryAcquireSharedNanos | tryAcquireNanos => exact h.2 hr
  | _ => exact hc.elim

/-- The calls do not interrupt their own thread. -/
def Unforced (c : Call) (o : Op T) (_ : Events T) : Prop := c.Interruptible → o ≠ .selfInterrupt

/-- A call ends as its method does. -/
theorem ends_returned {α : Type} {m : Interruptible T α} {f : α → Value} {c : Call}
    {Q : α → Events T → Prop} {R : Value → Events T → Prop} {events : Events T}
    (hm : Ensures (Unforced c) m (Ends Q) events) (hQR : ∀ a events, Q a events → R (f a) events) :
    Ensures (Unforced c) (m >>= fun a => pure (f a) : Interruptible T Value) (Ends R) events := by
  refine ensures_seq hm (fun e events h => ⟨nofun, fun he => h.2 ?_⟩) fun a events h => ?_
  · cases he
    rfl
  · exact ends_ok (hQR a events (h.1 a rfl))

theorem code_ensures (t : T) (c : Call) : Ensures (Unforced c) (c.code t) (Ended c) [] := by
  have hsafe : ∀ (o : Op T) (events : Events T), o ≠ .selfInterrupt → Unforced c o events :=
    fun _ _ ho _ => ho
  cases c with
  | acquireShared arg =>
    refine ensures_unchecked.mpr ?_
    refine ensures_seq (acquireShared_ensures.of_safe fun _ _ _ hc => hc.elim)
      (fun _ _ _ => ⟨nofun, nofun⟩) fun _ events hgot => ?_
    exact ⟨fun _ _ => hgot rfl, nofun⟩
  | acquireSharedInterruptibly arg =>
    exact ends_returned (acquireSharedInterruptibly_ensures hsafe) fun _ _ h => h
  | tryAcquireSharedNanos arg nanosTimeout =>
    exact ends_returned (tryAcquireSharedNanos_ensures hsafe) fun b _ h hb => h (by cases hb; rfl)
  | tryAcquireNanos arg nanosTimeout =>
    exact ends_returned (tryAcquireNanos_ensures hsafe) fun b _ h hb => h (by cases hb; rfl)
  | _ => exact (only_any.grows fun _ _ _ hc => hc.elim).mono fun _ _ _ => trivial

namespace State

variable [DecidableEq T]

/-- Every completed call that was to acquire has done so, and none has thrown
`InterruptedException` without an interrupt of its thread. -/
structure Proper (s : State T) : Prop where
  acquired : ∀ d ∈ s.completed, Acquired d.call d.result d.events
  interrupted : ∀ d ∈ s.completed, d.call.Interruptible ∨ (∃ arg, d.call = .acquireShared arg) →
    d.result = .error .interruptedException → d.interrupted = true

/-- A call of `acquireSharedInterruptibly` that has not acquired reads `SIGNAL` where it decides
whether to park, and after the park it finds that its thread is interrupted. -/
def Signalled (s : State T) : Turn T → Prop
  | .interrupt _ => True
  | .step t _ _ => ∀ r arg, s.running t = some r → r.call = .acquireSharedInterruptibly arg →
    ¬ GotShared arg r.events →
      (∀ pred next, r.code = .perform (.getWaitStatus pred) next → Unread r.events →
        s.memory.waitStatus pred = SIGNAL) ∧
      ∀ next, r.code = .perform .interrupted next → Parked r.events → s.memory.flag t = true

/-! ### Interrupts -/

variable {s : State T}

/-- The flag is set, or was found to be so, only if the thread was interrupted. -/
structure Flagged (s : State T) : Prop where
  running : ∀ t r, s.running t = some r → r.call.Interruptible →
    s.memory.flag t = true ∨ SawInterrupt r.events → r.interrupted = true
  completed : ∀ d ∈ s.completed, d.call.Interruptible → SawInterrupt d.events →
    d.interrupted = true

theorem flag_perform_of_ne {m : Memory T} {t u : T} {input : Input} {o : Op T} (h : u ≠ t) :
    (m.perform t input o).1.flag u = m.flag u := by
  cases o with
  | interrupted | selfInterrupt => exact Function.update_of_ne h ..
  | compareAndSet | compareAndSetWaitStatus =>
    simp only [Memory.perform]
    split <;> rfl
  | _ => rfl

theorem flag_of_perform {m : Memory T} {t : T} {input : Input} {o : Op T} (ho : o ≠ .selfInterrupt)
    (h : (m.perform t input o).1.flag t = true) : m.flag t = true := by
  cases o with
  | selfInterrupt => exact absurd rfl ho
  | interrupted =>
    exact absurd ((m.flag_setFlag_self t false).symm.trans h) Bool.false_ne_true
  | compareAndSet | compareAndSetWaitStatus =>
    simp only [Memory.perform] at h
    split at h <;> exact h
  | _ => exact h

theorem flag_of_saw {m : Memory T} {t : T} {input : Input} {o : Op T}
    (h : (⟨.interrupted, true⟩ : Event (Op T) (Op.Answer T)) = ⟨o, (m.perform t input o).2⟩) :
    m.flag t = true := by
  cases o with
  | interrupted =>
    injection h with _ hanswer
    exact hanswer.symm
  | _ => cases congrArg Event.op h

theorem Flagged.step (hkeeps : s.Keeps Unforced Ended) (h : s.Flagged) (turn : Turn T) :
    (s.step turn).Flagged := by
  have hmoves := s.moves_step turn
  generalize s.step turn = s' at hmoves
  cases hmoves with
  | starts hrun =>
    refine ⟨fun u r' hr' hc => ?_, h.completed⟩
    obtain ⟨rfl, heq⟩ | ⟨-, hold⟩ := running_put hr'
    · cases heq
      exact fun hflag => hflag.elim id fun hsaw => absurd hsaw List.not_mem_nil
    · exact h.running u r' hold hc
  | @returns t _ _ r result hrun hret =>
    refine ⟨fun u r' hr' hc => ?_, fun d hd => ?_⟩
    · obtain ⟨-, heq⟩ | ⟨-, hold⟩ := running_put hr'
      · cases heq
      · exact h.running u r' hold hc
    · rcases List.mem_cons.mp hd with rfl | hd
      · exact fun hc hsaw => h.running t r hrun hc (.inr hsaw)
      · exact h.completed d hd
  | @performs t _ input r o next hrun hop =>
    refine ⟨fun u r' hr' hc => ?_, h.completed⟩
    obtain ⟨rfl, heq⟩ | ⟨hne, hold⟩ := running_put hr'
    · cases heq
      have ho : o ≠ .selfInterrupt := hkeeps.safe hrun hop hc
      rintro (hflag | hsaw)
      · exact h.running u r hrun hc (.inl (flag_of_perform ho hflag))
      · rcases List.mem_cons.mp hsaw with heq | hsaw
        · exact h.running u r hrun hc (.inl (flag_of_saw heq))
        · exact h.running u r hrun hc (.inr hsaw)
    · rw [flag_perform_of_ne hne]
      exact h.running u r' hold hc
  | @unrolls t _ _ r _ _ body a next hrun hloop =>
    refine ⟨fun u r' hr' hc => ?_, h.completed⟩
    obtain ⟨rfl, heq⟩ | ⟨-, hold⟩ := running_put hr'
    · cases heq
      exact h.running u r hrun hc
    · exact h.running u r' hold hc
  | @interruptsIdle t hrun =>
    refine ⟨fun u r' hr' hc hflag => ?_, h.completed⟩
    have hne : u ≠ t := fun hu => by rw [hu, hrun] at hr'; cases hr'
    exact h.running u r' hr' hc
      (hflag.imp_left (s.memory.flag_setFlag_of_ne hne true).symm.trans)
  | @interrupts t r hrun =>
    refine ⟨fun u r' hr' hc hflag => ?_, h.completed⟩
    obtain ⟨-, heq⟩ | ⟨hne, hold⟩ := running_put hr'
    · cases heq
      rfl
    · exact h.running u r' hold hc
        (hflag.imp_left (s.memory.flag_setFlag_of_ne hne true).symm.trans)

/-! ### Slips -/

/-- No call of `acquireSharedInterruptibly` has slipped. -/
def Unslipped (s : State T) : Prop :=
  ∀ arg events, s.Has (.acquireSharedInterruptibly arg) events → ¬ Slipped arg events

theorem Unslipped.step (h : s.Unslipped) {turn : Turn T} (hturn : s.Signalled turn) :
    (s.step turn).Unslipped := by
  intro arg events hhas hslipped
  rcases hhas.of_step with hold | rfl | ⟨t, call, input, r, o, next, rfl, hrun, hop, hc, rfl⟩
  · exact h arg events hold hslipped
  · cases hslipped
  · cases hslipped with
    | earlier hslipped => exact h arg r.events (hc ▸ .running hrun) hslipped
    | here hslips =>
      generalize he : (⟨o, (s.memory.perform t input o).2⟩ : Event (Op T) (Op.Answer T)) = e
        at hslips
      cases hslips with
      | unsignalled hgot hunread hws =>
        cases he
        exact hws ((hturn r arg hrun hc.symm hgot).1 _ next hop hunread)
      | uninterrupted hgot hparked =>
        cases congrArg Event.op he
        injection he with _ hflag
        have hset := (hturn r arg hrun hc.symm hgot).2 next hop hparked
        exact Bool.false_ne_true (hflag.symm.trans hset)

/-! ### The calls -/

/-- What holds in every state of a run with no slip. -/
structure Inv (s : State T) : Prop where
  keeps : s.Keeps Unforced Ended
  flagged : s.Flagged
  unslipped : s.Unslipped

omit [DecidableEq T] in
theorem inv_start : (start : State T).Inv where
  keeps := keeps_start
  flagged := ⟨nofun, nofun⟩
  unslipped _ _ hhas := absurd hhas not_has_start

theorem Inv.step (h : s.Inv) {turn : Turn T} (hturn : s.Signalled turn) : (s.step turn).Inv where
  keeps := h.keeps.step code_ensures turn
  flagged := h.flagged.step h.keeps turn
  unslipped := h.unslipped.step hturn

omit [DecidableEq T] in
theorem Inv.proper (h : s.Inv) : s.Proper where
  acquired d hd := by
    refine acquired_of_ended (h.keeps.completed d hd) fun arg harg => ?_
    exact h.unslipped arg d.events (harg ▸ .completed hd)
  interrupted d hd hc hresult := by
    have hended := h.keeps.completed d hd
    rcases hc with hc | ⟨arg, harg⟩
    · exact h.flagged.completed d hd hc (sawInterrupt_of_ended hended hc hresult)
    · rw [harg] at hended
      exact absurd hresult hended.2

theorem proper_of_signalled (turns : List (Turn T)) (h : Along step Signalled start turns) :
    Throughout step Proper start turns :=
  (throughout_of_along (fun _ _ hinv hturn => hinv.step hturn) inv_start h).mono
    fun _ hinv => hinv.proper

/-- The event is no park. -/
def unparked (e : Event (Op T) (Op.Answer T)) : Bool :=
  match e.op with
  | .park => false
  | _ => true

omit [DecidableEq T] in
theorem not_parked {events : Events T} (h : events.all unparked) : ¬ Parked events := by
  intro hparked
  cases List.all_eq_true.mp h _ hparked

/-- Enough for `Signalled`: every `waitStatus` that the call reads is `SIGNAL`. -/
def signals (s : State T) : Turn T → Bool
  | .interrupt _ => true
  | .step t _ _ =>
    match s.running t with
    | some ⟨.acquireSharedInterruptibly _, .perform (.getWaitStatus pred) _, _, _⟩ =>
      decide (s.memory.waitStatus pred = SIGNAL)
    | some ⟨.acquireSharedInterruptibly _, .perform .interrupted _, events, _⟩ =>
      s.memory.flag t || events.all unparked
    | _ => true

omit [DecidableEq T] in
theorem signalled_of_signals {turn : Turn T} (h : s.signals turn) : s.Signalled turn := by
  cases turn with
  | interrupt t => trivial
  | step t call input =>
    rintro ⟨_, code, events, _⟩ arg hrun rfl -
    simp only [signals, hrun] at h
    refine ⟨fun pred next hcode _ => ?_, fun next hcode hparked => ?_⟩
    · cases hcode
      exact of_decide_eq_true h
    · cases hcode
      exact (Bool.or_eq_true_iff.mp h).resolve_right fun hall => not_parked hall hparked

/-- A thread cancels its exclusive acquire and leaves `SIGNAL` at the head. Another one parks behind
it and is interrupted. -/
def interruptedTwice : List (Turn Bool) :=
  List.replicate 27 (.step false (.acquireInterruptibly 1) ⟨0, false, false, 0⟩) ++
  .interrupt false ::
  List.replicate 12 (.step false (.acquireInterruptibly 1) ⟨0, false, false, 0⟩) ++
  List.replicate 12 (.step true (.acquireSharedInterruptibly 1) ⟨-1, false, false, 0⟩) ++
  .interrupt true ::
  List.replicate 12 (.step true (.acquireSharedInterruptibly 1) ⟨-1, false, false, 0⟩)

theorem proper_of_signalled_interrupted : Throughout step Proper start interruptedTwice ∧
    (run step start interruptedTwice).completed.map (fun d => (d.thread, d.call, d.result)) =
      [(true, .acquireSharedInterruptibly 1, .error .interruptedException),
        (false, .acquireInterruptibly 1, .error .interruptedException)] := by
  have hsignals : Along step (fun s turn => s.signals turn = true) start interruptedTwice := by
    decide +kernel
  exact ⟨proper_of_signalled _ (hsignals.mono fun _ _ => signalled_of_signals), by decide +kernel⟩

/-- No attempt has acquired in this event. -/
def refused (e : Event (Op T) (Op.Answer T)) : Bool :=
  match e with
  | ⟨.tryAcquireShared _, some r⟩ => decide (r < 0)
  | _ => true

omit [DecidableEq T] in
theorem not_gotShared {events : Events T} {arg : ℤ} (h : events.all refused = true) :
    ¬ GotShared arg events := by
  intro hgot
  obtain ⟨r, hr, hmem⟩ := hgot
  have hneg : r < 0 := of_decide_eq_true (List.all_eq_true.mp h _ hmem)
  omega

/-- A thread that never acquires returns. -/
theorem not_proper :
    ¬ Throughout step Proper (start : State Unit)
      (List.replicate 32 (.step () (.acquireSharedInterruptibly 1) ⟨-1, false, false, 0⟩)) := by
  intro h
  have hreturned : (run step (start : State Unit)
      (List.replicate 32 (.step () (.acquireSharedInterruptibly 1)
        ⟨-1, false, false, 0⟩))).completed.any (fun d =>
        d.call = .acquireSharedInterruptibly 1 ∧ d.result = .ok .void ∧
          d.events.all refused) = true := by
    decide +kernel
  obtain ⟨d, hd, hcheck⟩ := List.any_eq_true.mp hreturned
  obtain ⟨hcall, hresult, hevents⟩ := of_decide_eq_true hcheck
  have hacquired := h.last.acquired d hd
  rw [hcall, hresult] at hacquired
  exact not_gotShared hevents hacquired

end State

end BigPlan.QueuedSynchronizer
