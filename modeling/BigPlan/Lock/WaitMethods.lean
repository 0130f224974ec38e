import BigPlan.Lock.QueueMethods

/-!
# What waits and signals do to the sync queue

A wait acquires with the node that it has put into the condition queue, once it finds this on the
sync queue or has appended it itself. A signal appends each node that it takes before it goes on.
-/
namespace BigPlan.QueuedSynchronizer

open Lib Lib.Java Program Node

variable {T : Type} {t : T} {events events' : Events T} {node : Ref} {c : Call} {arg : ℤ}
  {nanosTimeout : JLong}

/-! ## Waiting -/

section Wait

theorem addConditionWaiter_does (hc : c.Awaits) (h : Idle c events) :
    Does c (addConditionWaiter t) (fun r events' =>
      Settled c events' ∧ ∀ node, r = .ok node → Owns c node events') events := by
  have hsignals := hc.not_signals
  refine does_op_seq (.inert trivial fun _ => id) fun last => ?_
  have h := h.cons (o := .get .lastWaiter) (a := last) trivial trivial
  refine does_seq (R := fun _ => Idle c) ?_ ?_ ?_
  · exact does_inert (Idle c) hsignals (only_lastWaiting last)
      (fun _ _ _ hmild hspares h => h.cons hmild hspares) h
  · exact fun e events h => ⟨h.settled, fun node hnode => (by cases hnode)⟩
  intro last events h
  refine does_op_seq (.makeWaiter hc) fun node => ?_
  have h := h.cons (o := .newNode (some t) CONDITION none) (a := node) trivial (.inr (by decide))
  have h : Owns c node (⟨.newNode (some t) CONDITION none, node⟩ :: events) :=
    ⟨⟨t, _, _, List.mem_cons_self⟩, h.left node, h.heads node, h.settled⟩
  have hfield : ∀ o : Op T, o = .set (last.elim .firstWaiter .nextWaiter) (some node) →
      Inert o ∧ (c.Signals → ¬ Takes o) := by
    rintro o rfl
    cases last with
    | none => exact ⟨trivial, fun _ => id⟩
    | some last => exact ⟨trivial, fun _ => id⟩
  obtain ⟨hinert, htakes⟩ := hfield _ rfl
  refine does_op_seq (.inert hinert htakes) fun _ => ?_
  have h := h.cons (o := .set (last.elim .firstWaiter .nextWaiter) (some node)) (a := ())
    hinert.mild (hinert.spares htakes)
  refine does_op_seq (.inert trivial fun _ => id) fun _ => ?_
  have h := h.cons (o := .set .lastWaiter (some node)) (a := ()) trivial trivial
  refine does_pure ⟨h.settled, fun n hn => ?_⟩
  cases hn
  exact h

/-- If the release fails, `tryRelease` has not released. -/
theorem release_does (hc : c.Awaits) (h : Owns c node events) :
    Does c (release arg) (fun r events' =>
      Owns c node events' ∧ (r = .ok true ∨ Failed events')) events := by
  have hsignals := hc.not_signals
  have howns : ∀ {α : Type} {m : Method T α} {events}, Only Inert m → Owns c node events →
      Does c m (fun _ => Owns c node) events := fun hm h =>
    does_inert (Owns c node) hsignals hm (fun _ _ _ hmild hspares h => h.cons hmild hspares) h
  refine does_seq (R := fun r events' => Owns c node events' ∧ (r = .ok true ∨ Failed events'))
    ?_ ?_ ?_
  · refine does_op_seq (.inert trivial fun _ => id) fun a => ?_
    have h := h.cons (o := .tryRelease arg) (a := a) trivial trivial
    cases a with
    | none => exact does_throw ⟨h, .inr ⟨arg, .inr ⟨none, by decide, List.mem_cons_self⟩⟩⟩
    | some a =>
      cases a with
      | true => exact does_pure ⟨h, .inl rfl⟩
      | false =>
        exact does_pure ⟨h, .inr ⟨arg, .inr ⟨some false, by decide, List.mem_cons_self⟩⟩⟩
  · rintro e events ⟨h, hr | hfailed⟩
    · cases hr
    · exact ⟨h, .inr hfailed⟩
  rintro released events ⟨h, hr⟩
  split
  · refine does_op_seq (.inert trivial fun _ => id) fun head => ?_
    have h := h.cons (o := .get .head) (a := head) trivial trivial
    cases head with
    | none => exact does_pure ⟨h, .inl rfl⟩
    | some head =>
      refine does_op_seq (.inert trivial fun _ => id) fun ws => ?_
      have h := h.cons (o := .getWaitStatus head) (a := ws) trivial trivial
      refine does_seq ((howns (only_ite only_unparkSuccessor only_pure) h).succeeds
        (succeeds_ite succeeds_unparkSuccessor succeeds_pure)) ?_ ?_
      · rintro e events ⟨u, hu, -⟩
        cases hu
      · rintro _ events ⟨-, -, h⟩
        exact does_pure ⟨h, .inl rfl⟩
  · rename_i hnot
    refine does_pure ⟨h, .inr (hr.resolve_left fun heq => ?_)⟩
    cases heq
    exact hnot rfl

theorem fullyRelease_does (hc : c.Awaits) (h : Owns c node events) :
    Does c (fullyRelease node) (fun r events' =>
      Settled c events' ∧ ∀ a, r = .ok a → Owns c node events') events := by
  have hcleanup : ∀ {events : Events T}, Owns c node events → Failed events →
      Does c (setWaitStatus node CANCELLED) (fun _ => Settled c) events := fun h hfailed =>
    does_op (.cancel h.made h.heads fun _ => hfailed) fun _ => h.settled.cons trivial
  apply does_withFinally
  refine does_op_seq (.inert trivial fun _ => id) fun savedState => ?_
  have h := h.cons (o := .getState) (a := savedState) trivial trivial
  refine does_seq (release_does hc h) ?_ ?_
  · rintro e events ⟨h, hr | hfailed⟩
    · cases hr
    · refine (hcleanup h hfailed).mono fun r events hsettled => ⟨hsettled, fun a ha => ?_⟩
      cases r with
      | ok => cases ha
      | error => cases ha
  · rintro released events ⟨h, hr⟩
    split
    · exact does_pure ⟨h.settled, fun _ _ => h⟩
    · rename_i hnot
      have hfailed : Failed events := hr.resolve_left fun heq => by
        cases heq
        exact hnot rfl
      apply does_throw
      refine (hcleanup h hfailed).mono fun r events hsettled => ⟨hsettled, fun a ha => ?_⟩
      cases r with
      | ok => cases ha
      | error => cases ha

theorem isOnSyncQueue_does (h : Owns c node events) :
    Does c (isOnSyncQueue node) (fun r events' =>
      Owns c node events' ∧ (r = .ok true → Joined node events')) events := by
  refine does_op_seq (.inert trivial fun _ => id) fun ws => ?_
  have h := h.cons (o := .getWaitStatus node) (a := ws) trivial trivial
  split
  · exact does_pure ⟨h, fun hr => (by cases hr)⟩
  refine does_op_seq (.inert trivial fun _ => id) fun prev => ?_
  have h := h.cons (o := .get (.prev node)) (a := prev) trivial trivial
  split
  · exact does_pure ⟨h, fun hr => (by cases hr)⟩
  refine does_op_seq (.inert trivial fun _ => id) fun next => ?_
  have h := h.cons (o := .get (.next node)) (a := next) trivial trivial
  split
  · rename_i hnext
    obtain ⟨n, rfl⟩ := Option.ne_none_iff_exists'.mp hnext
    exact does_pure ⟨h, fun _ => .next⟩
  refine does_op_seq (.inert trivial fun _ => id) fun tail => ?_
  have h := h.cons (o := .get .tail) (a := tail) trivial trivial
  -- each node on the way was found on the queue
  apply does_forever (fun t events => Owns c node events ∧ ∀ n, t = some n → Joined n events)
  · refine ⟨h, fun n hn => ?_⟩
    cases hn
    exact .tail
  intro t events h
  obtain ⟨h, ht⟩ := h
  cases t with
  | none => exact does_pure ⟨h, fun hr => (by cases hr)⟩
  | some t =>
    show Does c (if t = node then pure (.inr true) else _ : Method T (Option Ref ⊕ Bool)) _ events
    split
    · rename_i heq
      exact does_pure ⟨h, fun _ => heq ▸ ht t rfl⟩
    · refine does_op_seq (.inert trivial fun _ => id) fun prev => ?_
      have h := h.cons (o := .get (.prev t)) (a := prev) trivial trivial
      refine does_pure ⟨h, fun n hn => ?_⟩
      cases hn
      exact .prev (ht t rfl)

theorem transferAfterCancelledWait_does (hc : c.Awaits) (h : Owns c node events) :
    Does c (transferAfterCancelledWait node) (fun r events' =>
      Settled c events' ∧ ∀ b, r = .ok b → Acquires c node events') events := by
  have hmild : Mild (.compareAndSetWaitStatus node CONDITION 0 .cancelWait : Op T) := trivial
  refine does_op_seq (.cancelWait hc h.made) fun cancelled => ?_
  have hleft := not_left_cons (a := cancelled) h.left hmild
  have hheads := not_heads_cons (a := cancelled) h.heads hmild
  cases cancelled with
  | true =>
    have hbusy : Busy c node
        (⟨.compareAndSetWaitStatus node CONDITION 0 .cancelWait, true⟩ :: events) := by
      refine ⟨.cancelled hc.not_signals, fun n hn => ?_⟩
      cases hn with
      | cancelled => rfl
      | later hn => exact absurd hn (h.settled n)
    refine does_seq ((enq_does hbusy).and_grows only_enq) ?_ ?_
    · rintro e events ⟨⟨⟨p, hp⟩, -⟩, -⟩
      cases hp
    · rintro p events ⟨⟨-, hsettled, -, hjoined⟩, hg⟩
      apply does_pure
      exact ⟨hsettled, fun _ _ => ⟨⟨h.made.cons.of_grows hg, Linking.not_left hleft hg,
        Linking.not_heads hheads hg, hsettled⟩, hjoined⟩⟩
  | false =>
    have hsettled : Settled c
        (⟨.compareAndSetWaitStatus node CONDITION 0 .cancelWait, false⟩ :: events) := by
      intro n hn
      cases hn with
      | later hn => exact h.settled n hn
    apply does_forever (fun _ => Owns c node) ⟨h.made.cons, hleft, hheads, hsettled⟩
    intro _ events h
    refine does_seq (isOnSyncQueue_does h) (fun e events h => ⟨h.1.settled, ?_⟩) ?_
    · intro b hb
      cases hb
    rintro queued events ⟨h, hjoined⟩
    cases queued with
    | true => exact does_pure ⟨h.settled, fun _ _ => ⟨h, hjoined rfl⟩⟩
    | false =>
      refine does_op_seq (.inert trivial fun _ => id) fun _ => ?_
      exact does_pure (h.cons (o := .yield) trivial trivial)

/-- A wait is over, or the method has thrown. -/
def Waited (c : Call) (node : Ref) {ε α : Type} (r : Except ε α) (events : Events T) : Prop :=
  Settled c events ∧ ∀ a, r = .ok a → Acquires c node events

/-- A turn of a loop leaves the wait as it is, or the wait is over. -/
def Turned (c : Call) (node : Ref) {ε σ α : Type} (r : Except ε (σ ⊕ α)) (events : Events T) :
    Prop :=
  Settled c events ∧ (∀ s, r = .ok (.inl s) → Owns c node events) ∧
    ∀ a, r = .ok (.inr a) → Acquires c node events

/-- The wait goes on if it was not interrupted. -/
def Checked (c : Call) (node : Ref) (r : Except Unchecked ℤ) (events : Events T) : Prop :=
  Settled c events ∧ (r = .ok 0 → Owns c node events) ∧
    ∀ mode, mode ≠ 0 → r = .ok mode → Acquires c node events

theorem Owns.turned {ε σ α : Type} {s : σ} (h : Owns c node events) :
    Turned c node (.ok (.inl s) : Except ε (σ ⊕ α)) events :=
  ⟨h.settled, fun _ _ => h, fun a ha => (by cases ha)⟩

theorem Acquires.turned {ε σ α : Type} {a : α} (h : Acquires c node events) :
    Turned c node (.ok (.inr a) : Except ε (σ ⊕ α)) events :=
  ⟨h.settled, fun s hs => (by cases hs), fun _ _ => h⟩

theorem Settled.turned {ε σ α : Type} {e : ε} (h : Settled c events) :
    Turned c node (.error e : Except ε (σ ⊕ α)) events :=
  ⟨h, fun s hs => (by cases hs), fun a ha => (by cases ha)⟩

/-- The loop of a wait. -/
theorem wait_does {σ α : Type} {body : σ → Method T (σ ⊕ α)} {s : σ} (h : Owns c node events)
    (hbody : ∀ s events, Owns c node events → Does c (body s) (Turned c node) events) :
    Does c (forever body s) (Waited c node) events := by
  apply does_forever (fun _ => Owns c node) h
  refine fun s events h => (hbody s events h).mono fun r events h => ?_
  obtain ⟨hsettled, hgoes, hends⟩ := h
  cases r with
  | ok r =>
    cases r with
    | inl s => exact hgoes s rfl
    | inr a => exact ⟨hsettled, fun _ _ => hends a rfl⟩
  | error e => exact ⟨hsettled, fun a ha => (by cases ha)⟩

theorem checkInterruptWhileWaiting_does (hc : c.Awaits) (h : Owns c node events) :
    Does c (checkInterruptWhileWaiting node) (Checked c node) events := by
  refine does_op_seq .interrupted fun saw => ?_
  have h := h.cons (o := .interrupted) (a := saw) trivial trivial
  cases saw with
  | false =>
    refine does_pure ⟨h.settled, fun _ => h, fun mode hmode hr => ?_⟩
    cases hr
    exact absurd rfl hmode
  | true =>
    refine does_seq (transferAfterCancelledWait_does hc h) ?_ ?_
    · exact fun e events h => ⟨h.1, fun hr => (by cases hr), fun mode _ hr => (by cases hr)⟩
    rintro transferred events ⟨hsettled, hacquires⟩
    have hacquires := hacquires transferred rfl
    split
    · exact does_pure ⟨hsettled, fun hr => absurd (Except.ok.inj hr) (by decide),
        fun _ _ _ => hacquires⟩
    · exact does_pure ⟨hsettled, fun hr => absurd (Except.ok.inj hr) (by decide),
        fun _ _ _ => hacquires⟩

theorem parkAndCheck_does (hc : c.Awaits) (h : Owns c node events) :
    Does c (parkAndCheck node) (Checked c node) events := by
  refine does_op_seq (.inert trivial fun _ => id) fun _ => ?_
  exact checkInterruptWhileWaiting_does hc (h.cons (o := .park) trivial trivial)

/-- A turn looks for the node first. -/
theorem look_seq {σ α : Type} {m m' : Method T (σ ⊕ α)} (h : Owns c node events)
    (htrue : ∀ events, Acquires c node events → Does c m (Turned c node) events)
    (hfalse : ∀ events, Owns c node events → Does c m' (Turned c node) events) :
    Does c (isOnSyncQueue node >>= fun queued => if queued then m else m' : Method T (σ ⊕ α))
      (Turned c node) events := by
  refine does_seq (isOnSyncQueue_does h) (fun _ _ h => h.1.settled.turned) ?_
  rintro queued events ⟨h, hjoined⟩
  cases queued with
  | true => exact htrue events ⟨h, hjoined rfl⟩
  | false => exact hfalse events h

/-- It ends with a look at the interrupt flag. -/
theorem check_seq {σ α : Type} {m : Method T ℤ} {f : ℤ → α} {m' : Method T (σ ⊕ α)}
    (hm : Does c m (Checked c node) events)
    (hgoes : ∀ events, Owns c node events → Does c m' (Turned c node) events) :
    Does c (m >>= fun mode => if mode ≠ 0 then pure (.inr (f mode)) else m' : Method T (σ ⊕ α))
      (Turned c node) events := by
  refine does_seq hm (fun _ _ h => h.1.turned) ?_
  rintro mode events ⟨-, hzero, hne⟩
  split
  · rename_i hmode
    exact does_pure (hne mode hmode rfl).turned
  · rename_i hmode
    exact hgoes events (hzero (congrArg _ (not_not.mp hmode)))

theorem waitNanos_does {deadline : JLong} (hc : c.Awaits) (h : Owns c node events) :
    Does c (waitNanos node deadline nanosTimeout) (Waited c node) events := by
  refine wait_does h fun nanosTimeout events h => ?_
  refine look_seq h (fun events h => does_pure h.turned) fun events h => ?_
  split
  · refine does_seq (transferAfterCancelledWait_does hc h) (fun _ _ h => h.1.turned) ?_
    exact fun timedout events h => does_pure (h.2 timedout rfl).turned
  refine does_seq (R := fun _ => Owns c node) ?_ (fun _ _ h => h.settled.turned) fun _ events h => ?_
  · split
    · exact does_op (.inert trivial fun _ => id) fun _ => h.cons trivial trivial
    · exact does_pure h
  refine check_seq (checkInterruptWhileWaiting_does hc h) fun events h => ?_
  refine does_op_seq (.inert trivial fun _ => id) fun now => ?_
  exact does_pure (h.cons (o := .nanoTime) (a := now) trivial trivial).turned

theorem waitUntil_does {abstime : JLong} (hc : c.Awaits) (h : Owns c node events) :
    Does c (forever (fun _ => do
      if ← isOnSyncQueue node then return .inr (false, 0)
      else
        let now ← currentTimeMillis
        if abstime.slt now then
          let timedout ← transferAfterCancelledWait node
          return .inr (timedout, 0)
        else
          let interruptMode ← parkAndCheck node
          if interruptMode ≠ 0 then return .inr (false, interruptMode) else return .inl ()) () :
      Method T (Bool × ℤ)) (Waited c node) events := by
  refine wait_does h fun _ events h => ?_
  refine look_seq h (fun events h => does_pure h.turned) fun events h => ?_
  refine does_op_seq (.inert trivial fun _ => id) fun now => ?_
  have h := h.cons (o := .currentTimeMillis) (a := now) trivial trivial
  split
  · refine does_seq (transferAfterCancelledWait_does hc h) (fun _ _ h => h.1.turned) ?_
    exact fun timedout events h => does_pure (h.2 timedout rfl).turned
  exact check_seq (parkAndCheck_does hc h) fun events h => does_pure h.turned

theorem reacquire_does {savedState interruptMode : ℤ} (hc : c.Awaits) (h : Acquires c node events) :
    Does c (reacquire node savedState interruptMode) (fun _ => Settled c) events := by
  have hsignals := hc.not_signals
  refine does_lift_seq (acquireQueued_does hsignals h) (fun _ _ h => h) fun saw events h => ?_
  refine does_lift_seq (does_settled hsignals (only_op trivial) h) (fun _ _ h => h)
    fun nextWaiter events h => ?_
  refine does_lift_seq (does_settled hsignals (only_ite only_unlinkCancelledWaiters only_pure) h)
    (fun _ _ h => h) fun _ events h => ?_
  have hreport : ∀ mode, Does c (if mode ≠ 0 then reportInterruptAfterWait mode else pure ())
      (fun _ => Settled c) events := by
    intro mode
    split
    swap
    · exact does_pure h
    unfold reportInterruptAfterWait
    split
    · exact does_throw h
    split
    · apply does_lift.mpr
      apply does_op .selfInterrupt
      exact fun _ => h.cons trivial
    · exact does_pure h
  exact hreport _

/-- A method that can be interrupted looks at the flag first. -/
theorem interrupted_lift_seq {α : Type} {m : Interruptible T α} (h : Idle c events)
    (hm : ∀ events, Idle c events → Does c m (fun _ => Settled c) events) :
    Does c (lift threadInterrupted >>= fun interrupted =>
      if interrupted then throw .interruptedException else m : Interruptible T α)
      (fun _ => Settled c) events := by
  refine does_lift_seq (R := fun _ => Idle c) ?_ (fun _ _ h => h.settled) fun saw events h => ?_
  · apply does_op .interrupted
    exact fun saw => h.cons trivial trivial
  split
  · exact does_throw h.settled
  · exact hm events h

/-- Every wait that can be interrupted begins in this way. -/
theorem begin_does {α : Type} {f : Ref → ℤ → Interruptible T α} (hc : c.Awaits)
    (h : Idle c events) (hf : ∀ node savedState events, Owns c node events →
      Does c (f node savedState) (fun _ => Settled c) events) :
    Does c (lift threadInterrupted >>= fun interrupted =>
      if interrupted then throw .interruptedException
      else lift (addConditionWaiter t) >>= fun node => lift (fullyRelease node) >>= f node :
      Interruptible T α) (fun _ => Settled c) events := by
  refine interrupted_lift_seq h fun events h => ?_
  refine does_lift_seq (addConditionWaiter_does hc h) (fun _ _ h => h.1) fun node events h => ?_
  refine does_lift_seq (fullyRelease_does hc (h.2 node rfl)) (fun _ _ h => h.1) ?_
  exact fun savedState events h => hf node savedState events (h.2 savedState rfl)

theorem await_does (hc : c.Awaits) (h : Idle c events) :
    Does c (await t) (fun _ => Settled c) events := by
  refine begin_does hc h fun node savedState events h => ?_
  refine does_lift_seq (R := Waited c node) ?_ (fun _ _ h => h.1) fun mode events h =>
    reacquire_does hc (h.2 mode rfl)
  refine wait_does h fun _ events h => ?_
  refine look_seq h (fun events h => does_pure h.turned) fun events h => ?_
  exact check_seq (parkAndCheck_does hc h) fun events h => does_pure h.turned

theorem awaitUninterruptibly_does (hc : c.Awaits) (h : Idle c events) :
    Does c (awaitUninterruptibly t) (fun _ => Settled c) events := by
  refine does_seq (addConditionWaiter_does hc h) (fun _ _ h => h.1) fun node events h => ?_
  refine does_seq (fullyRelease_does hc (h.2 node rfl)) (fun _ _ h => h.1) ?_
  intro savedState events h
  refine does_seq (R := Waited c node) ?_ (fun _ _ h => h.1) fun interrupted events h => ?_
  · refine wait_does (h.2 savedState rfl) fun interrupted events h => ?_
    refine look_seq h (fun events h => does_pure h.turned) fun events h => ?_
    refine does_op_seq (.inert trivial fun _ => id) fun _ => ?_
    have h := h.cons (o := .park) (a := ()) trivial trivial
    refine does_op_seq .interrupted fun again => ?_
    exact does_pure (h.cons (o := .interrupted) (a := again) trivial trivial).turned
  · refine does_seq (acquireQueued_does hc.not_signals (h.2 interrupted rfl)) (fun _ _ h => h) ?_
    intro again events h
    split
    · apply does_op .selfInterrupt
      exact fun _ => h.cons trivial
    · exact does_pure h

theorem nanoTime_lift_seq {α : Type} {f : JLong → Interruptible T α} (h : Owns c node events)
    (hf : ∀ now events, Owns c node events → Does c (f now) (fun _ => Settled c) events) :
    Does c (lift nanoTime >>= f : Interruptible T α) (fun _ => Settled c) events := by
  refine does_lift_seq (R := fun _ => Owns c node) ?_ (fun _ _ h => h.settled) hf
  exact does_op (.inert trivial fun _ => id) fun now => h.cons trivial trivial

theorem awaitNanos_does (hc : c.Awaits) (h : Idle c events) :
    Does c (awaitNanos t nanosTimeout) (fun _ => Settled c) events := by
  refine begin_does hc h fun node savedState events h => ?_
  refine nanoTime_lift_seq h fun now events h => ?_
  refine does_lift_seq (waitNanos_does hc h) (fun _ _ h => h.1) fun waited events h => ?_
  refine does_seq (reacquire_does hc (h.2 waited rfl)) (fun _ _ h => h) fun _ events h => ?_
  refine does_lift_seq (does_settled hc.not_signals (only_op trivial) h) (fun _ _ h => h) ?_
  exact fun now events h => does_pure h

theorem awaitFor_does (hc : c.Awaits) (h : Idle c events) :
    Does c (awaitFor t nanosTimeout) (fun _ => Settled c) events := by
  refine begin_does hc h fun node savedState events h => ?_
  refine nanoTime_lift_seq h fun now events h => ?_
  refine does_lift_seq (waitNanos_does hc h) (fun _ _ h => h.1) fun waited events h => ?_
  refine does_seq (reacquire_does hc (h.2 waited rfl)) (fun _ _ h => h) ?_
  exact fun _ events h => does_pure h

theorem awaitUntil_does {abstime : JLong} (hc : c.Awaits) (h : Idle c events) :
    Does c (awaitUntil t abstime) (fun _ => Settled c) events := by
  refine begin_does hc h fun node savedState events h => ?_
  refine does_lift_seq (waitUntil_does hc h) (fun _ _ h => h.1) fun waited events h => ?_
  refine does_seq (reacquire_does hc (h.2 waited rfl)) (fun _ _ h => h) ?_
  exact fun _ events h => does_pure h

end Wait

/-! ## Signalling -/

section Signal

/-- The call is about to take nodes from the condition queue. -/
structure Signalling (c : Call) (events : Events T) : Prop where
  settled : Settled c events
  granted : Granted events

theorem Signalling.cons {o : Op T} {a : o.Answer T} (h : Signalling c events) (ho : Spares c o) :
    Signalling c (⟨o, a⟩ :: events) := ⟨h.settled.cons ho, List.mem_cons_of_mem _ h.granted⟩

theorem Appended.mono (h : Appended node events) (hsubset : events ⊆ events') :
    Appended node events' := by
  obtain ⟨field, expect, hmem⟩ := h
  exact ⟨field, expect, hsubset hmem⟩

/-- The node is appended in any case. -/
theorem transferForSignal_does (h : Busy c node events) :
    Does c (transferForSignal node) (fun r events' =>
      r = .ok true ∧ Settled c events' ∧ Appended node events') events := by
  refine does_seq (enq_does h) ?_ ?_
  · rintro e events ⟨⟨p, hp⟩, -⟩
    cases hp
  rintro p events ⟨-, hsettled, happended, -⟩
  have hcons : ∀ {o : Op T} {a : o.Answer T} {events : Events T}, Spares c o →
      Settled c events ∧ Appended node events →
      Settled c (⟨o, a⟩ :: events) ∧ Appended node (⟨o, a⟩ :: events) := fun ho h =>
    ⟨h.1.cons ho, h.2.mono (List.subset_cons_self _ _)⟩
  refine does_op_seq (.inert trivial fun _ => id) fun ws => ?_
  have h := hcons (o := .getWaitStatus p) (a := ws) trivial ⟨hsettled, happended⟩
  refine does_seq (R := fun r events => (∃ b, r = .ok b) ∧ Settled c events ∧ Appended node events)
    ?_ ?_ ?_
  · split
    · exact does_pure ⟨⟨false, rfl⟩, h⟩
    · rename_i hws
      have hinert : Inert (.compareAndSetWaitStatus p ws SIGNAL .other : Op T) :=
        ⟨Int.not_lt.mp hws, by decide, by decide, rfl⟩
      exact does_op (.inert hinert fun _ => id) fun set => ⟨⟨set, rfl⟩, hcons rfl h⟩
  · rintro e events ⟨⟨b, hb⟩, -⟩
    cases hb
  rintro signal events ⟨-, h⟩
  refine does_seq (R := fun r events => (∃ u, r = .ok u) ∧ Settled c events ∧ Appended node events)
    ?_ ?_ ?_
  · split
    · exact does_pure ⟨⟨_, rfl⟩, h⟩
    · refine does_op_seq (.inert trivial fun _ => id) fun thread => ?_
      have h := hcons (o := .getThread node) (a := thread) trivial h
      exact does_op (.inert trivial fun _ => id) fun _ => ⟨⟨_, rfl⟩, hcons trivial h⟩
  · rintro e events ⟨⟨u, hu⟩, -⟩
    cases hu
  · exact fun _ events h => does_pure ⟨rfl, h.2⟩

/-- A waiter is taken from the condition queue and transferred. -/
theorem take_seq {α : Type} {f : Bool → Method T α} {Q : Except Unchecked α → Events T → Prop}
    (hc : c.Signals) (h : Signalling c events)
    (hf : ∀ events, Signalling c events → Appended node events → Does c (f true) Q events) :
    Does c (set (.nextWaiter node) none >>= fun _ => transferForSignal node >>= f : Method T α) Q
      events := by
  refine does_op_seq (.take hc h.granted) fun _ => ?_
  have hbusy : Busy c node (⟨.set (.nextWaiter node) none, ()⟩ :: events) := by
    refine ⟨.taken hc, fun n hn => ?_⟩
    cases hn with
    | taken => rfl
    | later hn => exact absurd hn (h.settled n)
  refine does_seq ((transferForSignal_does hbusy).and_grows only_any) ?_ ?_
  · rintro e events ⟨⟨hr, -⟩, -⟩
    cases hr
  · rintro transferred events ⟨⟨hr, hsettled, happended⟩, hg⟩
    cases hr
    exact hf events ⟨hsettled, hg.subset (List.mem_cons_of_mem _ h.granted)⟩ happended

theorem doSignal_does {first : Ref} (hc : c.Signals) (h : Signalling c events) :
    Does c (doSignal first) (fun r events' =>
      Settled c events' ∧ (r = .ok () → ∃ node, Appended node events')) events := by
  apply does_forever (fun _ => Signalling c) h
  intro first events h
  refine does_op_seq (.inert trivial fun _ => id) fun next => ?_
  have h := h.cons (o := .get (.nextWaiter first)) (a := next) trivial
  refine does_op_seq (.inert trivial fun _ => id) fun _ => ?_
  have h := h.cons (o := .set .firstWaiter next) (a := ()) trivial
  refine does_seq (R := fun _ => Signalling c) ?_ ?_ fun _ events h => ?_
  · split
    · exact does_op (.inert trivial fun _ => id) fun _ => h.cons trivial
    · exact does_pure h
  · exact fun e events h => ⟨h.settled, fun hr => by cases hr⟩
  · refine take_seq hc h fun events h happended => ?_
    exact does_pure ⟨h.settled, fun _ => ⟨first, happended⟩⟩

theorem doSignalAll_does {first : Ref} (hc : c.Signals) (h : Signalling c events) :
    Does c (doSignalAll first) (fun r events' =>
      Settled c events' ∧ (r = .ok () → ∃ node, Appended node events')) events := by
  refine does_op_seq (.inert trivial fun _ => id) fun _ => ?_
  have h := h.cons (o := .set .firstWaiter none) (a := ()) trivial
  refine does_op_seq (.inert trivial fun _ => id) fun _ => ?_
  have h := h.cons (o := .set .lastWaiter none) (a := ()) trivial
  apply does_forever (fun _ => Signalling c) h
  intro first events h
  refine does_op_seq (.inert trivial fun _ => id) fun next => ?_
  have hread := h.cons (o := .get (.nextWaiter first)) (a := next) trivial
  refine take_seq hc hread fun events h happended => ?_
  cases next with
  | none => exact does_pure ⟨h.settled, fun _ => ⟨first, happended⟩⟩
  | some next => exact does_pure h

theorem signalBy_does {signal : Ref → Method T Unit} (h : Settled c events)
    (hsignal : ∀ first events, Signalling c events → Does c (signal first) (fun r events' =>
      Settled c events' ∧ (r = .ok () → ∃ node, Appended node events')) events) :
    Does c (signalBy signal) (fun r events' => Settled c events' ∧ (r = .ok () →
      (∃ node, Appended node events') ∨ lastFirstWaiter events' = some none)) events := by
  refine does_seq (R := fun r events' => Settled c events' ∧ (r = .ok true → Granted events'))
    ?_ (fun e events h => ⟨h.1, fun hr => by cases hr⟩) ?_
  · refine does_op_seq (.inert trivial fun _ => id) fun held => ?_
    have h := h.cons (o := .isHeldExclusively) (a := held) trivial
    cases held with
    | none => exact does_throw ⟨h, fun hr => by cases hr⟩
    | some held =>
      refine does_pure ⟨h, fun hr => ?_⟩
      cases hr
      exact List.mem_cons_self
  rintro held events ⟨h, hgranted⟩
  split
  · rename_i hheld
    have h : Signalling c events := ⟨h, hgranted (congrArg _ hheld)⟩
    refine does_op_seq (.inert trivial fun _ => id) fun first => ?_
    have h := h.cons (o := .get .firstWaiter) (a := first) trivial
    cases first with
    | none => exact does_pure ⟨h.settled, fun _ => .inr rfl⟩
    | some first =>
      exact (hsignal first _ h).mono fun _ _ h => ⟨h.1, fun hr => .inl (h.2 hr)⟩
  · exact does_throw ⟨h, fun hr => by cases hr⟩

end Signal

/-! ## The calls -/

/-- How the calls end: nothing is left to append, and a signal has transferred a waiter, or there
was none. -/
def EndsWell (c : Call) (r : Except Thrown Value) (events : Events T) : Prop :=
  Settled c events ∧ (c.Signals → r = .ok .void →
    (∃ node, Appended node events) ∨ lastFirstWaiter events = some none)

section Calls

theorem does_returned {α : Type} {m : Interruptible T α} {f : α → Value} (hc : ¬ c.Signals)
    (hm : Does c m (fun _ => Settled c) events) :
    Does c (m >>= fun a => pure (f a) : Interruptible T Value) (EndsWell c) events :=
  does_seq hm (fun _ _ h => ⟨h, fun hs => absurd hs hc⟩)
    fun _ _ h => does_pure ⟨h, fun hs => absurd hs hc⟩

theorem does_lifted {α : Type} {m : Method T α} {f : α → Value} (hc : ¬ c.Signals)
    (hm : Does c m (fun _ => Settled c) events) :
    Does c (lift (m >>= fun a => pure (f a))) (EndsWell c) events :=
  does_lift.mpr (does_seq hm (fun _ _ h => ⟨h, fun hs => absurd hs hc⟩)
    fun _ _ h => does_pure ⟨h, fun hs => absurd hs hc⟩)

theorem does_signal {signal : Ref → Method T Unit} (hsignal : ∀ first events, Signalling c events →
      Does c (signal first) (fun r events' =>
        Settled c events' ∧ (r = .ok () → ∃ node, Appended node events')) events) :
    Does (T := T) c (lift (signalBy signal >>= fun _ => pure .void)) (EndsWell c) [] := by
  refine does_lift.mpr (does_seq (signalBy_does idle_nil.settled hsignal) ?_ ?_)
  · exact fun e events h => ⟨h.1, fun _ hr => by cases hr⟩
  · exact fun _ events h => does_pure ⟨h.1, fun _ _ => h.2 rfl⟩

/-- What the subclass answers. -/
theorem answer_seq {α β : Type} {m : Method T α} {f : α → Method T β}
    (hc : ¬ c.Signals) (hm : Only Inert m) (h : Idle c events)
    (hf : ∀ a events, Idle c events → Does c (f a) (fun _ => Settled c) events) :
    Does c (m >>= f : Method T β) (fun _ => Settled c) events :=
  does_seq (does_inert (Idle c) hc hm (fun _ _ _ hmild hspares h => h.cons hmild hspares) h)
    (fun _ _ h => h.settled) hf

theorem acquire_does (hc : ¬ c.Signals) (h : Idle c events) :
    Does c (acquire t arg) (fun _ => Settled c) events := by
  refine answer_seq hc (only_then (only_op trivial) only_answered) h fun acquired events h => ?_
  split
  · exact does_pure h.settled
  refine does_seq (addWaiter_does hc h) ?_ ?_
  · rintro e events ⟨node, hnode, -⟩
    cases hnode
  rintro node events ⟨n, hn, h⟩
  cases hn
  refine does_seq (acquireQueued_does hc h) (fun _ _ h => h) fun saw events h => ?_
  split
  · apply does_op .selfInterrupt
    exact fun _ => h.cons trivial
  · exact does_pure h

/-- The same in a method that can be interrupted. -/
theorem answer_lift_seq {α β : Type} {m : Method T α} {f : α → Interruptible T β}
    (hc : ¬ c.Signals) (hm : Only Inert m) (h : Idle c events)
    (hf : ∀ a events, Idle c events → Does c (f a) (fun _ => Settled c) events) :
    Does c (lift m >>= f : Interruptible T β) (fun _ => Settled c) events :=
  does_lift_seq (does_inert (Idle c) hc hm (fun _ _ _ hmild hspares h => h.cons hmild hspares) h)
    (fun _ _ h => h.settled) hf

theorem acquireInterruptibly_does (hc : ¬ c.Signals) (hawaits : ¬ c.Awaits) (h : Idle c events) :
    Does c (acquireInterruptibly t arg) (fun _ => Settled c) events := by
  refine interrupted_lift_seq h fun events h => ?_
  refine answer_lift_seq hc (only_then (only_op trivial) only_answered) h fun acquired events h => ?_
  split
  · exact does_pure h.settled
  · exact doAcquireInterruptibly_does hc hawaits h

theorem tryAcquireNanos_does (hc : ¬ c.Signals) (hawaits : ¬ c.Awaits) (h : Idle c events) :
    Does c (tryAcquireNanos t arg nanosTimeout) (fun _ => Settled c) events := by
  refine interrupted_lift_seq h fun events h => ?_
  refine answer_lift_seq hc (only_then (only_op trivial) only_answered) h fun acquired events h => ?_
  split
  · exact does_pure h.settled
  · exact doAcquireNanosBy_does hc hawaits (fun _ _ _ h hp => attempt_does h hp) h

theorem acquireShared_does (hc : ¬ c.Signals) (hawaits : ¬ c.Awaits) (h : Idle c events) :
    Does c (acquireShared t arg) (fun _ => Settled c) events := by
  refine answer_seq hc (only_then (only_op trivial) only_answered) h fun r events h => ?_
  split
  · exact doAcquireShared_does hc hawaits h
  · exact does_pure h.settled

theorem acquireSharedInterruptibly_does (hc : ¬ c.Signals) (hawaits : ¬ c.Awaits)
    (h : Idle c events) :
    Does c (acquireSharedInterruptibly t arg) (fun _ => Settled c) events := by
  refine interrupted_lift_seq h fun events h => ?_
  refine answer_lift_seq hc (only_then (only_op trivial) only_answered) h fun r events h => ?_
  split
  · exact doAcquireSharedInterruptibly_does hc hawaits h
  · exact does_pure h.settled

theorem tryAcquireSharedNanos_does (hc : ¬ c.Signals) (hawaits : ¬ c.Awaits)
    (h : Idle c events) :
    Does c (tryAcquireSharedNanos t arg nanosTimeout) (fun _ => Settled c) events := by
  refine interrupted_lift_seq h fun events h => ?_
  refine answer_lift_seq hc (only_then (only_op trivial) only_answered) h fun r events h => ?_
  split
  · exact does_pure h.settled
  · exact doAcquireNanosBy_does hc hawaits (fun _ _ _ h hp => attemptShared_does hawaits hc h hp) h

theorem only_releaseShared : Only Inert (releaseShared arg : Method T Bool) := by
  refine only_then (only_then (only_op trivial) only_answered) fun released => ?_
  exact only_ite (only_then only_doReleaseShared fun _ => only_pure) only_pure

theorem code_does (t : T) (c : Call) : Does c (c.code t) (EndsWell c) [] := by
  cases c with
  | acquire arg => exact does_lifted id (acquire_does id idle_nil)
  | acquireInterruptibly arg => exact does_returned id (acquireInterruptibly_does id id idle_nil)
  | tryAcquireNanos arg nanosTimeout =>
    exact does_returned id (tryAcquireNanos_does id id idle_nil)
  | release arg => exact does_lifted id (does_settled id only_release idle_nil.settled)
  | acquireShared arg => exact does_lifted id (acquireShared_does id id idle_nil)
  | acquireSharedInterruptibly arg =>
    exact does_returned id (acquireSharedInterruptibly_does id id idle_nil)
  | tryAcquireSharedNanos arg nanosTimeout =>
    exact does_returned id (tryAcquireSharedNanos_does id id idle_nil)
  | releaseShared arg =>
    exact does_lifted id (does_settled id only_releaseShared idle_nil.settled)
  | await => exact does_returned id (await_does trivial idle_nil)
  | awaitUninterruptibly => exact does_lifted id (awaitUninterruptibly_does trivial idle_nil)
  | awaitNanos nanosTimeout => exact does_returned id (awaitNanos_does trivial idle_nil)
  | awaitFor nanosTimeout => exact does_returned id (awaitFor_does trivial idle_nil)
  | awaitUntil abstime => exact does_returned id (awaitUntil_does trivial idle_nil)
  | signal => exact does_signal fun first events h => doSignal_does trivial h
  | signalAll => exact does_signal fun first events h => doSignalAll_does trivial h

end Calls

end BigPlan.QueuedSynchronizer
