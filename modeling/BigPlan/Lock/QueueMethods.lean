import BigPlan.Lock.QueueRules

/-!
# What the methods do to the sync queue

A call makes at most one node to append and cancels at most one wait at a time. It acquires with a
node only once this was found on the queue, and a signal appends each node that it takes before it
goes on.
-/
namespace BigPlan.QueuedSynchronizer

open Lib Lib.Java Program Node

variable {T : Type} {t : T} {events events' : Events T} {node p n : Ref} {c : Call} {arg : ℤ}

/-! ## Operations -/

/-- An operation that gives the call nothing to append. -/
def Spares (c : Call) : Op T → Prop
  | .newNode thread ws _ => thread = none ∨ ws ≠ 0
  | .compareAndSetWaitStatus _ _ _ purpose => purpose = .other
  | .set (.nextWaiter _) none => ¬ c.Signals
  | _ => True

/-- An operation that marks no node as the head or as cancelled. -/
def Mild : Op T → Prop
  | .setWaitStatus _ _ | .set .head _ => False
  | _ => True

theorem Inert.spares {o : Op T} (h : Inert o) (hc : c.Signals → ¬ Takes o) : Spares c o := by
  cases o with
  | newNode => exact h.elim
  | compareAndSetWaitStatus => exact h.2.2.2
  | set field v =>
    cases field with
    | nextWaiter n =>
      cases v with
      | none => exact fun hsignals => hc hsignals trivial
      | some n => trivial
    | _ => trivial
  | _ => trivial

theorem Inert.mild {o : Op T} (h : Inert o) : Mild o := by
  cases o with
  | setWaitStatus => exact h.elim
  | set field v =>
    cases field with
    | head => exact h.elim
    | _ => trivial
  | _ => trivial

section Cons

variable {o : Op T} {a : o.Answer T}

theorem Holds.of_cons (h : Holds c n (⟨o, a⟩ :: events)) (ho : Spares c o) :
    Holds c n events ∧ ¬ Appends n (⟨o, a⟩ : Event (Op T) (Op.Answer T)) := by
  cases h with
  | made => exact absurd rfl (ho.resolve_left (Option.some_ne_none _))
  | cancelled => cases (show Purpose.cancelWait = .other from ho)
  | taken hc => exact absurd hc ho
  | later h he => exact ⟨h, he⟩

theorem Settled.cons (h : Settled c events) (ho : Spares c o) : Settled c (⟨o, a⟩ :: events) :=
  fun n hn => h n (hn.of_cons ho).1

theorem Made.cons {e : Event (Op T) (Op.Answer T)} (h : Made node events) :
    Made node (e :: events) := by
  obtain ⟨t, ws, w, hmem⟩ := h
  exact ⟨t, ws, w, List.mem_cons_of_mem e hmem⟩

theorem not_left_cons (h : ¬ Left node events) (ho : Mild o) : ¬ Left node (⟨o, a⟩ :: events) := by
  intro hleft
  rcases List.mem_cons.mp hleft with heq | hmem
  · cases heq
    exact ho
  · exact h hmem

theorem not_heads_cons (h : ¬ Heads node events) (ho : Mild o) :
    ¬ Heads node (⟨o, a⟩ :: events) := by
  intro hheads
  rcases List.mem_cons.mp hheads with heq | hmem
  · cases heq
    exact ho
  · exact h hmem

end Cons

/-! ## What a call knows of its node -/

/-- The call has made the node, which is neither the head nor cancelled, and has nothing to
append. -/
structure Owns (c : Call) (node : Ref) (events : Events T) : Prop where
  made : Made node events
  left : ¬ Left node events
  heads : ¬ Heads node events
  settled : Settled c events

/-- It has found its node on the queue. -/
structure Acquires (c : Call) (node : Ref) (events : Events T) : Prop
    extends Owns c node events where
  joined : Joined node events

/-- The node is the only one to append. -/
structure Busy (c : Call) (node : Ref) (events : Events T) : Prop where
  holds : Holds c node events
  only : ∀ n, Holds c n events → n = node

/-- Nothing was done to the queue. -/
structure Idle (c : Call) (events : Events T) : Prop where
  left : ∀ n, ¬ Left n events
  heads : ∀ n, ¬ Heads n events
  settled : Settled c events

theorem idle_nil : Idle c ([] : Events T) where
  left _ := List.not_mem_nil
  heads _ := List.not_mem_nil
  settled _ h := by cases h

section Cons

variable {o : Op T} {a : o.Answer T}

theorem Owns.cons (h : Owns c node events) (ho : Mild o) (hc : Spares c o) :
    Owns c node (⟨o, a⟩ :: events) where
  made := h.made.cons
  left := not_left_cons h.left ho
  heads := not_heads_cons h.heads ho
  settled := h.settled.cons hc

theorem Acquires.cons (h : Acquires c node events) (ho : Mild o) (hc : Spares c o) :
    Acquires c node (⟨o, a⟩ :: events) where
  toOwns := h.toOwns.cons ho hc
  joined := .later h.joined

theorem Idle.cons (h : Idle c events) (ho : Mild o) (hc : Spares c o) :
    Idle c (⟨o, a⟩ :: events) where
  left n := not_left_cons (h.left n) ho
  heads n := not_heads_cons (h.heads n) ho
  settled := h.settled.cons hc

theorem Busy.cons (h : Busy c node events) (hc : Spares c o)
    (ho : ¬ Appends node (⟨o, a⟩ : Event (Op T) (Op.Answer T))) :
    Busy c node (⟨o, a⟩ :: events) where
  holds := .later h.holds ho
  only n hn := h.only n (hn.of_cons hc).1

end Cons

/-! ## Methods that leave the queue -/

section Inert

variable {ε α : Type} {m : ExceptT ε (Code T) α}

/-- What is kept by the operations that leave the queue. -/
theorem does_inert (J : Events T → Prop) (hc : ¬ c.Signals) (hm : Only Inert m)
    (hJ : ∀ (o : Op T) a events, Mild o → Spares c o → J events → J (⟨o, a⟩ :: events))
    (h0 : J events) : Does c m (fun _ => J) events := by
  have hspares : ∀ {o : Op T}, Inert o → Spares c o := fun ho =>
    ho.spares fun hsignals => absurd hsignals hc
  refine (hm.ensures (J := J) ?_ ?_ h0).mono fun _ _ h => .inr h
  · exact fun o events ho _ => .inr (.inert ho fun hsignals => absurd hsignals hc)
  · exact fun o a events ho h => hJ o a events ho.mild (hspares ho) h

theorem does_settled (hc : ¬ c.Signals) (hm : Only Inert m) (h : Settled c events) :
    Does c m (fun _ => Settled c) events :=
  does_inert (Settled c) hc hm (fun _ _ _ _ ho h => h.cons ho) h

end Inert

/-! ## Appending -/

/-- Neither the head nor a `waitStatus` is written. -/
theorem Linking.not_left {node : Ref} (h : ¬ Left node events) (hg : Grows Linking events events') :
    ¬ Left node events' := fun hleft => h (hg.mem hleft id)

theorem Linking.not_heads {node : Ref} (h : ¬ Heads node events)
    (hg : Grows Linking events events') : ¬ Heads node events' := fun hheads => h (hg.mem hheads id)

theorem Made.of_grows {K : Op T → Prop} (h : Made node events) (hg : Grows K events events') :
    Made node events' := by
  obtain ⟨t, ws, w, hmem⟩ := h
  exact ⟨t, ws, w, hg.subset hmem⟩

theorem not_appends {o : Op T} {a : o.Answer T}
    (h : ∀ field expect, o ≠ .compareAndSet field expect (some node) .append) :
    ¬ Appends node (⟨o, a⟩ : Event (Op T) (Op.Answer T)) := by
  rintro ⟨field, expect, heq⟩
  exact h field expect (congrArg Event.op heq)

theorem compareAndSetTail_does (h : Busy c node events) :
    Does c (compareAndSetTail (some p) (some node) .append) (fun r events' =>
      r = .ok true ∧ Settled c events' ∧ Appended node events' ∧ Joined p events' ∧
        Joined node events' ∨ r = .ok false ∧ Busy c node events')
      (⟨.set (.prev node) (some p), ()⟩ :: events) := by
  have hbusy : Busy c node (⟨.set (.prev node) (some p), ()⟩ :: events) :=
    h.cons trivial (not_appends fun _ _ heq => by cases heq)
  apply does_op (.append h.holds)
  intro set
  cases set with
  | true =>
    refine .inl ⟨rfl, fun n hn => ?_, ⟨_, _, List.mem_cons_self⟩, .behind, .appended⟩
    obtain ⟨hheld, hnot⟩ := hn.of_cons trivial
    rw [hbusy.only n hheld] at hnot
    exact hnot ⟨_, _, rfl⟩
  | false =>
    refine .inr ⟨rfl, hbusy.cons trivial ?_⟩
    rintro ⟨field, expect, heq⟩
    cases heq

theorem enq_does (h : Busy c node events) :
    Does c (enq node) (fun r events' =>
      (∃ p, r = .ok p) ∧ Settled c events' ∧ Appended node events' ∧ Joined node events')
      events := by
  apply does_forever (fun _ => Busy c node) h
  intro _ events h
  refine does_op_seq (.inert trivial fun _ => id) fun tail => ?_
  have h := h.cons (o := .get .tail) (a := tail) trivial (not_appends fun _ _ heq => by cases heq)
  cases tail with
  | none =>
    refine does_op_seq .makeFirst fun dummy => ?_
    have h := h.cons (o := .newNode none 0 none) (a := dummy) (.inl rfl)
      (not_appends fun _ _ heq => by cases heq)
    refine does_op_seq .leadFirst fun set => ?_
    have h := h.cons (o := .compareAndSet .head none (some dummy) .other) (a := set) trivial
      (not_appends fun _ _ heq => by cases heq)
    cases set with
    | false => exact does_pure h
    | true =>
      refine does_op_seq (.inert trivial fun _ => id) fun head => ?_
      have h := h.cons (o := .get .head) (a := head) trivial
        (not_appends fun _ _ heq => by cases heq)
      refine does_op_seq .begin fun _ => ?_
      exact does_pure (h.cons (o := .set .tail head) trivial
        (not_appends fun _ _ heq => by cases heq))
  | some tail =>
    refine does_op_seq (.prepare h.holds) fun _ => ?_
    refine does_seq (compareAndSetTail_does h) ?_ ?_
    · rintro e events (⟨he, -⟩ | ⟨he, -⟩) <;> cases he
    · rintro set events (⟨hset, hsettled, happended, htail, hjoined⟩ | ⟨hset, h⟩) <;> cases hset
      · refine does_op_seq (.linkNext (.inl htail)) fun _ => ?_
        apply does_pure
        refine ⟨⟨tail, rfl⟩, hsettled.cons trivial, ?_, .later hjoined⟩
        obtain ⟨field, expect, hmem⟩ := happended
        exact ⟨field, expect, List.mem_cons_of_mem _ hmem⟩
      · exact does_pure h

theorem addWaiter_does {mode : Option Ref} (hc : ¬ c.Signals) (h : Idle c events) :
    Does c (addWaiter t mode) (fun r events' => ∃ node, r = .ok node ∧ Acquires c node events')
      events := by
  suffices hnode : Does c (addWaiter t mode) (fun r events' =>
      ∃ node, r = .ok node ∧ Made node events' ∧ Settled c events' ∧ Joined node events') events by
    refine (hnode.and_grows only_addWaiter).mono fun r events' h' => ?_
    obtain ⟨⟨node, hr, hmade, hsettled, hjoined⟩, hg⟩ := h'
    exact ⟨node, hr, ⟨hmade, Linking.not_left (h.left node) hg,
      Linking.not_heads (h.heads node) hg, hsettled⟩, hjoined⟩
  refine does_op_seq (.make hc) fun node => ?_
  have hbusy : Busy c node (⟨.newNode (some t) 0 mode, node⟩ :: events) := by
    refine ⟨.made hc, fun n hn => ?_⟩
    cases hn with
    | made => rfl
    | later hn => exact absurd hn (h.settled n)
  have hmade : Made node (⟨.newNode (some t) 0 mode, node⟩ :: events) :=
    ⟨_, _, _, List.mem_cons_self⟩
  refine does_op_seq (.inert trivial fun _ => id) fun pred => ?_
  have hbusy := hbusy.cons (o := .get .tail) (a := pred) trivial
    (not_appends fun _ _ heq => by cases heq)
  have hmade := hmade.cons (e := ⟨.get .tail, pred⟩)
  have henq : ∀ {events}, Busy c node events → Made node events →
      Does c (enq node >>= fun _ => pure node : Method T Ref) (fun r events' =>
        ∃ node, r = .ok node ∧ Made node events' ∧ Settled c events' ∧ Joined node events')
        events := by
    intro events hbusy hmade
    refine does_seq ((enq_does hbusy).and_grows only_enq) ?_ ?_
    · rintro e events ⟨⟨⟨p, hp⟩, -⟩, -⟩
      cases hp
    · rintro p events ⟨⟨-, hsettled, -, hjoined⟩, hg⟩
      exact does_pure ⟨node, rfl, hmade.of_grows hg, hsettled, hjoined⟩
  cases pred with
  | none => exact henq hbusy hmade
  | some pred =>
    refine does_op_seq (.prepare hbusy.holds) fun _ => ?_
    refine does_seq ((compareAndSetTail_does hbusy).and_grows (K := Linking) (only_op trivial)) ?_ ?_
    · rintro e events ⟨⟨he, -⟩ | ⟨he, -⟩, -⟩ <;> cases he
    · rintro set events ⟨h, hg⟩
      have hmade := hmade.cons.of_grows (K := Linking) hg
      rcases h with ⟨hset, hsettled, -, htail, hjoined⟩ | ⟨hset, hbusy⟩ <;> cases hset
      · refine does_op_seq (.linkNext (.inl htail)) fun _ => ?_
        exact does_pure ⟨node, rfl, hmade.cons, hsettled.cons trivial, .later hjoined⟩
      · exact henq hbusy hmade

/-! ## Acquiring -/

section Acquire

theorem predecessor_does (h : Acquires c node events) :
    Does c (predecessor node) (fun r events' =>
      ∃ p, r = .ok p ∧ Acquires c node events' ∧ Ahead node p events') events := by
  refine does_op_seq (.inert trivial fun _ => id) fun p => ?_
  cases p with
  | none => exact does_of_broken (.first h.joined h.made h.heads)
  | some p =>
    apply does_pure
    exact ⟨p, rfl, h.cons (o := .get (.prev node)) trivial trivial, .read h.joined⟩

theorem skipCancelled_does (h : Acquires c node events) (hp : Ahead node p events) :
    Does c (skipCancelled node (some p)) (fun r events' =>
      ∃ p, r = .ok p ∧ Acquires c node events' ∧ Ahead node p events') events := by
  apply does_forever (fun pred events =>
    Acquires c node events ∧ ∃ p, pred = some p ∧ Ahead node p events) ⟨h, p, rfl, hp⟩
  rintro pred events ⟨h, p, rfl, hp⟩
  refine does_op_seq (.inert trivial fun _ => id) fun ws => ?_
  have h := h.cons (o := .getWaitStatus p) (a := ws) trivial trivial
  split
  · rename_i hws
    have hgone : Positive p (⟨.getWaitStatus p, ws⟩ :: events) := ⟨ws, hws, List.mem_cons_self⟩
    refine does_op_seq (.inert trivial fun _ => id) fun q => ?_
    cases q with
    | none => exact does_of_broken (.skip hp.later hgone)
    | some q =>
      have h := h.cons (o := .get (.prev p)) (a := some q) trivial trivial
      refine does_op_seq (.relink (.skip hp.later hgone)) fun _ => ?_
      have hq : Ahead node q (⟨.get (.prev p), some q⟩ :: ⟨.getWaitStatus p, ws⟩ :: events) :=
        .skip hp.later hgone
      exact does_pure ⟨h.cons (o := .set (.prev node) (some q)) trivial trivial, q, rfl, hq.later⟩
  · exact does_pure ⟨p, rfl, h, hp.later⟩

theorem shouldPark_does (h : Acquires c node events) (hp : Ahead node p events) :
    Does c (shouldParkAfterFailedAcquire p node) (fun r events' =>
      ∃ b, r = .ok b ∧ Acquires c node events') events := by
  refine does_op_seq (.inert trivial fun _ => id) fun ws => ?_
  have h := h.cons (o := .getWaitStatus p) (a := ws) trivial trivial
  split
  · exact does_pure ⟨true, rfl, h⟩
  split
  · rename_i hws
    have hgone : Positive p (⟨.getWaitStatus p, ws⟩ :: events) := ⟨ws, hws, List.mem_cons_self⟩
    refine does_op_seq (.inert trivial fun _ => id) fun q => ?_
    cases q with
    | none => exact does_of_broken (.skip hp.later hgone)
    | some q =>
      have h := h.cons (o := .get (.prev p)) (a := some q) trivial trivial
      have hq : Ahead node q (⟨.get (.prev p), some q⟩ :: ⟨.getWaitStatus p, ws⟩ :: events) :=
        .skip hp.later hgone
      refine does_op_seq (.relink hq) fun _ => ?_
      have h := h.cons (o := .set (.prev node) (some q)) (a := ()) trivial trivial
      refine does_seq (skipCancelled_does h hq.later) ?_ ?_
      · rintro e events ⟨p, hp, -⟩
        cases hp
      · rintro pred events ⟨p, hpred, h, hp⟩
        cases hpred
        refine does_op_seq (.linkNext (.inr ⟨node, hp⟩)) fun _ => ?_
        exact does_pure ⟨false, rfl, h.cons (o := .set (.next pred) _) trivial trivial⟩
  · rename_i hws
    refine does_op_seq (.inert ⟨Int.not_lt.mp hws, by decide, by decide, rfl⟩ fun _ => id) fun set => ?_
    exact does_pure ⟨false, rfl,
      h.cons (o := .compareAndSetWaitStatus p ws SIGNAL .other) trivial rfl⟩

theorem parksInterrupted_does (h : Acquires c node events) (hp : Ahead node p events) :
    Does c (parksInterrupted p node) (fun r events' =>
      ∃ b, r = .ok b ∧ Acquires c node events') events := by
  refine does_seq (shouldPark_does h hp) ?_ ?_
  · rintro e events ⟨b, hb, -⟩
    cases hb
  rintro parks events ⟨b, -, h⟩
  split
  · refine does_op_seq (.inert trivial fun _ => id) fun _ => ?_
    have h := h.cons (o := .park) (a := ()) trivial trivial
    apply does_op .interrupted
    exact fun saw => ⟨saw, rfl, h.cons (o := .interrupted) trivial trivial⟩
  · exact does_pure ⟨false, rfl, h⟩

/-- What an attempt to acquire leaves. If it throws, `tryAcquire` has. -/
def Attempted (c : Call) (node p : Ref) (r : Except Unchecked Bool) (events : Events T) : Prop :=
  (r = .ok true → Settled c events) ∧
    (r = .ok false → Acquires c node events ∧ Ahead node p events) ∧
    ∀ e, r = .error e → Acquires c node events ∧ (c.Awaits → Failed events)

theorem setHead_does (h : Acquires c node events) (hp : Ahead node p events)
    (hhead : ⟨.get .head, some p⟩ ∈ events) :
    Does c (setHead node) (fun r events' => r = .ok () ∧ Settled c events') events := by
  refine does_op_seq (.lead h.made h.left hp hhead) fun _ => ?_
  have hheads : Heads node (⟨.set .head (some node), ()⟩ :: events) := List.mem_cons_self
  have hsettled := h.settled.cons (o := .set .head (some node)) (a := ()) trivial
  refine does_op_seq (.inert trivial fun _ => id) fun _ => ?_
  have hsettled := hsettled.cons (o := .setThread node none) (a := ()) trivial
  apply does_op (.unlinkHead (List.mem_cons_of_mem _ hheads))
  exact fun _ => ⟨rfl, hsettled.cons (o := .set (.prev node) none) trivial⟩

theorem attempt_does (h : Acquires c node events) (hp : Ahead node p events) :
    Does c (attempt p node arg) (Attempted c node p) events := by
  refine does_op_seq (.inert trivial fun _ => id) fun head => ?_
  have h := h.cons (o := .get .head) (a := head) trivial trivial
  split
  swap
  · exact does_pure ⟨fun hr => (by cases hr), fun _ => ⟨h, hp.later⟩, fun _ hr => (by cases hr)⟩
  rename_i hhead
  subst hhead
  refine does_seq (R := fun r events' => Acquires c node events' ∧
    Ahead node p events' ∧ ⟨.get .head, some p⟩ ∈ events' ∧
    ∀ e, r = .error e → Failed events') ?_ ?_ ?_
  · refine does_op_seq (.inert trivial fun _ => id) fun a => ?_
    have h := h.cons (o := .tryAcquire arg) (a := a) trivial trivial
    have hmem : ⟨.get .head, some p⟩ ∈ (⟨.tryAcquire arg, a⟩ :: ⟨.get .head, some p⟩ :: events :
        Events T) := List.mem_cons_of_mem _ List.mem_cons_self
    cases a with
    | none =>
      exact does_throw ⟨h, hp.later.later, hmem, fun _ _ => ⟨arg, .inl List.mem_cons_self⟩⟩
    | some acquired =>
      exact does_pure ⟨h, hp.later.later, hmem, fun _ hr => (by cases hr)⟩
  · rintro e events ⟨h, -, -, hfailed⟩
    refine ⟨fun hr => (by cases hr), fun hr => (by cases hr), fun _ _ => ⟨h, fun _ => ?_⟩⟩
    exact hfailed e rfl
  · rintro acquired events ⟨h, hp, hhead, -⟩
    split
    · refine does_seq (setHead_does h hp hhead) ?_ ?_
      · rintro e events ⟨hr, -⟩
        cases hr
      · rintro _ events ⟨-, hsettled⟩
        refine does_op_seq (.inert rfl fun _ => id) fun _ => ?_
        exact does_pure ⟨fun _ => hsettled.cons (o := .set (.next p) none) trivial,
          fun hr => (by cases hr), fun _ hr => (by cases hr)⟩
    · exact does_pure ⟨fun hr => (by cases hr), fun _ => ⟨h, hp⟩, fun _ hr => (by cases hr)⟩

theorem attemptShared_does (hc : ¬ c.Awaits) (hsignals : ¬ c.Signals) (h : Acquires c node events)
    (hp : Ahead node p events) :
    Does c (attemptShared p node arg) (Attempted c node p) events := by
  refine does_op_seq (.inert trivial fun _ => id) fun head => ?_
  have h := h.cons (o := .get .head) (a := head) trivial trivial
  split
  swap
  · exact does_pure ⟨fun hr => (by cases hr), fun _ => ⟨h, hp.later⟩, fun _ hr => (by cases hr)⟩
  rename_i hhead
  subst hhead
  refine does_seq (R := fun r events' => Acquires c node events' ∧
    Ahead node p events' ∧ ⟨.get .head, some p⟩ ∈ events') ?_ ?_ ?_
  · refine does_op_seq (.inert trivial fun _ => id) fun a => ?_
    have h := h.cons (o := .tryAcquireShared arg) (a := a) trivial trivial
    have hmem : ⟨.get .head, some p⟩ ∈ (⟨.tryAcquireShared arg, a⟩ ::
        ⟨.get .head, some p⟩ :: events : Events T) := List.mem_cons_of_mem _ List.mem_cons_self
    cases a with
    | none => exact does_throw ⟨h, hp.later.later, hmem⟩
    | some r => exact does_pure ⟨h, hp.later.later, hmem⟩
  · rintro e events ⟨h, -, -⟩
    exact ⟨fun hr => (by cases hr), fun hr => (by cases hr), fun _ _ => ⟨h, fun ha => absurd ha hc⟩⟩
  · rintro r events ⟨h, hp, hhead⟩
    split
    swap
    · exact does_pure ⟨fun hr => (by cases hr), fun _ => ⟨h, hp⟩, fun _ hr => (by cases hr)⟩
    refine does_seq (R := fun r events' => ∃ u, r = .ok u ∧ Settled c events') ?_ ?_ ?_
    · refine does_op_seq (.inert trivial fun _ => id) fun first => ?_
      have h := h.cons (o := .get .head) (a := first) trivial trivial
      refine does_seq (setHead_does h hp.later (List.mem_cons_of_mem _ hhead)) ?_ ?_
      · rintro e events ⟨hr, -⟩
        cases hr
      · rintro _ events ⟨-, hsettled⟩
        exact (does_settled hsignals (only_propagate first) hsettled).succeeds
          (succeeds_propagate first)
    · rintro e events ⟨u, hu, -⟩
      cases hu
    · rintro u events ⟨-, -, hsettled⟩
      refine does_op_seq (.inert rfl fun _ => id) fun _ => ?_
      exact does_pure ⟨fun _ => hsettled.cons (o := .set (.next p) none) trivial,
        fun hr => (by cases hr), fun _ hr => (by cases hr)⟩

end Acquire

/-! ## Leaving the queue -/

section Cancel

/-- The acquire of the node is over, and nothing is left to append. -/
structure Cancels (c : Call) (node p : Ref) (events : Events T) : Prop where
  settled : Settled c events
  joined : Joined node events
  ahead : Ahead node p events

theorem Cancels.cons {o : Op T} {a : o.Answer T} (h : Cancels c node p events)
    (ho : Spares c o) : Cancels c node p (⟨o, a⟩ :: events) :=
  ⟨h.settled.cons ho, .later h.joined, h.ahead.later⟩

theorem Failed.mono (h : Failed events) (hsubset : events ⊆ events') : Failed events' := by
  obtain ⟨arg, hmem | ⟨a, ha, hmem⟩⟩ := h
  · exact ⟨arg, .inl (hsubset hmem)⟩
  · exact ⟨arg, .inr ⟨a, ha, hsubset hmem⟩⟩

theorem Failed.cons {e : Event (Op T) (Op.Answer T)} (h : Failed events) : Failed (e :: events) :=
  h.mono (List.subset_cons_self e events)

theorem bypass_does {next : Option Ref} (hc : ¬ c.Signals) (h : Cancels c node p events) :
    Does c (bypass node p next) (fun _ => Cancels c node p) events := by
  have hinert : ∀ {α : Type} {m : Method T α} {events}, Only Inert m → Cancels c node p events →
      Does c m (fun _ => Cancels c node p) events := fun hm h =>
    does_inert (Cancels c node p) hc hm (fun _ _ _ _ ho h => h.cons ho) h
  refine does_seq (hinert only_signals h) (fun _ _ h => h) fun signals events h => ?_
  split
  swap
  · exact hinert only_unparkSuccessor h
  refine does_op_seq (.inert trivial fun _ => id) fun n => ?_
  have h := h.cons (o := .get (.next node)) (a := n) trivial
  cases n with
  | none => exact does_pure h
  | some n =>
    refine does_op_seq (.inert trivial fun _ => id) fun ws => ?_
    have h := h.cons (o := .getWaitStatus n) (a := ws) trivial
    refine does_seq (R := fun _ => Cancels c node p) ?_ (fun _ _ h => h) fun _ _ h => does_pure h
    split
    · apply does_op (.bypass ⟨node, h.ahead⟩)
      exact fun _ => h.cons trivial
    · exact does_pure h

theorem cancelAcquire_does (hc : ¬ c.Signals) (h : Acquires c node events)
    (hfailed : c.Awaits → Failed events) :
    Does c (cancelAcquire node) (fun _ => Settled c) events := by
  refine does_op_seq (.inert trivial fun _ => id) fun _ => ?_
  have h := h.cons (o := .setThread node none) (a := ()) trivial trivial
  refine does_op_seq (.inert trivial fun _ => id) fun p => ?_
  cases p with
  | none => exact does_of_broken (.first h.joined h.made h.heads)
  | some p =>
    have hp : Ahead node p (⟨.get (.prev node), some p⟩ :: ⟨.setThread node none, ()⟩ :: events) :=
      .read h.joined
    have h := h.cons (o := .get (.prev node)) (a := some p) trivial trivial
    refine does_seq ((skipCancelled_does h hp).and_grows only_any) ?_ ?_
    · rintro e events ⟨⟨p, hp, -⟩, -⟩
      cases hp
    rintro p events ⟨⟨q, hq, h, hp⟩, hg⟩
    cases hq
    refine does_op_seq (.inert trivial fun _ => id) fun next => ?_
    have h := h.cons (o := .get (.next p)) (a := next) trivial trivial
    have hcancel : c.Awaits → Failed (⟨.get (.next p), next⟩ :: events) := fun ha =>
      ((hfailed ha).cons.cons.mono hg.subset).cons
    refine does_op_seq (.cancel h.made h.heads hcancel) fun _ => ?_
    have hleft : Left node (⟨.setWaitStatus node CANCELLED, ()⟩ :: ⟨.get (.next p), next⟩ ::
        events) := List.mem_cons_self
    have h : Cancels c node p (⟨.setWaitStatus node CANCELLED, ()⟩ :: ⟨.get (.next p), next⟩ ::
        events) := ⟨h.settled.cons trivial, .later h.joined, hp.later.later⟩
    refine does_op_seq (.inert trivial fun _ => id) fun tail => ?_
    have h := h.cons (o := .get .tail) (a := tail) trivial
    refine does_seq (R := fun _ => Cancels c node p) ?_ (fun _ _ h => h.settled) ?_
    · split
      · apply does_op (.cut (List.mem_cons_of_mem _ hleft) h.ahead)
        exact fun _ => h.cons trivial
      · exact does_pure h
    intro removed events h
    split
    · refine does_op_seq (.bypass ⟨node, h.ahead⟩) fun _ => ?_
      exact does_pure (h.settled.cons trivial)
    · refine does_seq (bypass_does hc h) (fun _ _ h => h.settled) fun _ events h => ?_
      apply does_op (.linkNext (.inl h.joined))
      exact fun _ => h.settled.cons trivial

/-- What the body of a `try` leaves: if it has failed, the node is to be cancelled. -/
def Tried (c : Call) (node : Ref) {ε α : Type} (r : Except ε (Bool × α)) (events : Events T) :
    Prop :=
  Settled c events ∧
    ((∀ a, r ≠ .ok (false, a)) → Acquires c node events ∧ (c.Awaits → Failed events))

theorem finally_does {ε α : Type} {body : ExceptT ε (Code T) (Bool × α)}
    {cleanup : ExceptT ε (Code T) Unit} (h : Does c body (Tried c node) events)
    (hcleanup : ∀ events, Acquires c node events → (c.Awaits → Failed events) →
      Does c cleanup (fun _ => Settled c) events) :
    Does c (withFinally body cleanup) (fun _ => Settled c) events := by
  refine does_withFinally (h.mono fun r events h => ?_)
  cases r with
  | error e =>
    obtain ⟨hacquires, hfailed⟩ := h.2 fun a ha => by cases ha
    exact hcleanup events hacquires hfailed
  | ok r =>
    obtain ⟨failed, a⟩ := r
    cases failed with
    | false => exact h.1
    | true =>
      obtain ⟨hacquires, hfailed⟩ := h.2 fun a ha => by cases ha
      exact hcleanup events hacquires hfailed

theorem Acquires.tried {ε α : Type} {r : Except ε (Bool × α)} (h : Acquires c node events)
    (hc : ¬ c.Awaits) : Tried c node r events := ⟨h.settled, fun _ => ⟨h, fun ha => absurd ha hc⟩⟩

section Try

variable {β : Type} {m : Ref → Method T Bool}
  (hm : ∀ p events, Acquires c node events → Ahead node p events →
    Does c (m p) (Attempted c node p) events)
include hm

/-- A turn of a loop begins with an attempt behind the node ahead. -/
theorem try_seq {f : Ref → Bool → Method T β} {Q : Except Unchecked β → Events T → Prop}
    (h : Acquires c node events)
    (herror : ∀ e events, Acquires c node events → (c.Awaits → Failed events) →
      Q (.error e) events)
    (htrue : ∀ p events, Settled c events → Does c (f p true) Q events)
    (hfalse : ∀ p events, Acquires c node events → Ahead node p events →
      Does c (f p false) Q events) :
    Does c (predecessor node >>= fun p => m p >>= f p : Method T β) Q events := by
  refine does_seq (predecessor_does h) ?_ ?_
  · rintro e events ⟨p, hp, -⟩
    cases hp
  rintro p events ⟨q, hq, h, hp⟩
  cases hq
  refine does_seq (hm p events h hp) ?_ ?_
  · rintro e events ⟨-, -, hfailed⟩
    obtain ⟨h, hfailed⟩ := hfailed e rfl
    exact herror e events h hfailed
  rintro acquired events ⟨hsettled, hnot, -⟩
  cases acquired with
  | true => exact htrue p events (hsettled rfl)
  | false =>
    obtain ⟨h, hp⟩ := hnot rfl
    exact hfalse p events h hp

theorem try_lift_seq {f : Ref → Bool → Interruptible T β} {Q : Except Thrown β → Events T → Prop}
    (h : Acquires c node events)
    (herror : ∀ e events, Acquires c node events → (c.Awaits → Failed events) →
      Q (.error e) events)
    (htrue : ∀ p events, Settled c events → Does c (f p true) Q events)
    (hfalse : ∀ p events, Acquires c node events → Ahead node p events →
      Does c (f p false) Q events) :
    Does c (lift (predecessor node) >>= fun p => lift (m p) >>= f p : Interruptible T β) Q
      events := by
  refine does_lift_seq (predecessor_does h) ?_ ?_
  · rintro e events ⟨p, hp, -⟩
    cases hp
  rintro p events ⟨q, hq, h, hp⟩
  cases hq
  refine does_lift_seq (hm p events h hp) ?_ ?_
  · rintro e events ⟨-, -, hfailed⟩
    obtain ⟨h, hfailed⟩ := hfailed e rfl
    exact herror _ events h hfailed
  rintro acquired events ⟨hsettled, hnot, -⟩
  cases acquired with
  | true => exact htrue p events (hsettled rfl)
  | false =>
    obtain ⟨h, hp⟩ := hnot rfl
    exact hfalse p events h hp

end Try

theorem Settled.tried {ε α : Type} {a : α} (h : Settled c events) :
    Tried c node (.ok (false, a) : Except ε (Bool × α)) events := ⟨h, fun hne => absurd rfl (hne a)⟩

theorem acquireQueued_does (hc : ¬ c.Signals) (h : Acquires c node events) :
    Does c (acquireQueued node arg) (fun _ => Settled c) events := by
  refine finally_does ?_ fun events h hfailed => cancelAcquire_does hc h hfailed
  apply does_forever (fun _ => Acquires c node) h
  intro interrupted events h
  refine try_seq (fun p events h hp => attempt_does h hp) h ?_ ?_ ?_
  · exact fun e events h hfailed => ⟨h.settled, fun _ => ⟨h, hfailed⟩⟩
  · exact fun p events h => does_pure h.tried
  · intro p events h hp
    refine does_seq (parksInterrupted_does h hp) ?_ ?_
    · rintro e events ⟨b, hb, -⟩
      cases hb
    · rintro again events ⟨b, -, h⟩
      exact does_pure h

theorem doAcquireInterruptibly_does (hc : ¬ c.Signals) (hawaits : ¬ c.Awaits)
    (h : Idle c events) :
    Does c (doAcquireInterruptibly t arg) (fun _ => Settled c) events := by
  refine does_lift_seq (addWaiter_does hc h) ?_ ?_
  · rintro e events ⟨node, hnode, -⟩
    cases hnode
  rintro node events ⟨n, hn, h⟩
  cases hn
  refine finally_does ?_ fun events h hfailed => does_lift.mpr (cancelAcquire_does hc h hfailed)
  apply does_forever (fun _ => Acquires c node) h
  intro _ events h
  refine try_lift_seq (fun p events h hp => attempt_does h hp) h ?_ ?_ ?_
  · exact fun e events h _ => h.tried hawaits
  · exact fun p events h => does_pure h.tried
  · intro p events h hp
    refine does_lift_seq (parksInterrupted_does h hp) ?_ ?_
    · rintro e events ⟨b, hb, -⟩
      cases hb
    · rintro saw events ⟨b, -, h⟩
      split
      · exact does_throw (h.tried hawaits)
      · exact does_pure h

theorem parkNanosBefore_does {deadline : JLong} (h : Acquires c node events)
    (hp : Ahead node p events) :
    Does c (parkNanosBefore deadline p node) (fun _ => Acquires c node) events := by
  refine does_lift_seq (R := fun _ events => Acquires c node events ∧ Ahead node p events) ?_
    (fun _ _ h => h.1) fun now events h => ?_
  · exact does_op (.inert trivial fun _ => id) fun now => ⟨h.cons trivial trivial, hp.later⟩
  split
  · exact does_pure h.1
  refine does_lift_seq (shouldPark_does h.1 h.2) ?_ ?_
  · rintro e events ⟨b, hb, -⟩
    cases hb
  rintro parks events ⟨b, -, h⟩
  refine does_lift_seq (R := fun _ => Acquires c node) ?_ (fun _ _ h => h) fun _ events h => ?_
  · split
    · exact does_op (.inert trivial fun _ => id) fun _ => h.cons trivial trivial
    · exact does_pure h
  refine does_lift_seq (R := fun _ => Acquires c node) ?_ (fun _ _ h => h) fun saw events h => ?_
  · apply does_op .interrupted
    exact fun saw => h.cons trivial trivial
  split
  · exact does_throw h
  · exact does_pure h

theorem doAcquireNanosBy_does {mode : Option Ref} {attempt : Ref → Ref → Method T Bool}
    {nanosTimeout : JLong} (hc : ¬ c.Signals) (hawaits : ¬ c.Awaits)
    (hattempt : ∀ node p events, Acquires c node events → Ahead node p events →
      Does c (attempt p node) (Attempted c node p) events) (h : Idle c events) :
    Does c (doAcquireNanosBy mode attempt t nanosTimeout) (fun _ => Settled c) events := by
  unfold doAcquireNanosBy
  split
  · exact does_pure h.settled
  refine does_lift_seq (R := fun _ => Idle c) ?_ (fun _ _ h => h.settled) fun now events h => ?_
  · exact does_op (.inert trivial fun _ => id) fun now => h.cons trivial trivial
  refine does_lift_seq (addWaiter_does hc h) ?_ ?_
  · rintro e events ⟨node, hnode, -⟩
    cases hnode
  rintro node events ⟨n, hn, h⟩
  cases hn
  refine finally_does ?_ fun events h hfailed => does_lift.mpr (cancelAcquire_does hc h hfailed)
  apply does_forever (fun _ => Acquires c node) h
  intro _ events h
  refine try_lift_seq (fun p events h hp => hattempt node p events h hp) h ?_ ?_ ?_
  · exact fun e events h _ => h.tried hawaits
  · exact fun p events h => does_pure h.tried
  · intro p events h hp
    refine does_seq (parkNanosBefore_does h hp) (fun _ _ h => h.tried hawaits) fun again events h => ?_
    split
    · exact does_pure h
    · exact does_pure (h.tried hawaits)

theorem doAcquireShared_does (hc : ¬ c.Signals) (hawaits : ¬ c.Awaits) (h : Idle c events) :
    Does c (doAcquireShared t arg) (fun _ => Settled c) events := by
  refine does_seq (addWaiter_does hc h) ?_ ?_
  · rintro e events ⟨node, hnode, -⟩
    cases hnode
  rintro node events ⟨n, hn, h⟩
  cases hn
  refine finally_does ?_ fun events h hfailed => cancelAcquire_does hc h hfailed
  apply does_forever (fun _ => Acquires c node) h
  intro interrupted events h
  refine try_seq (fun p events h hp => attemptShared_does hawaits hc h hp) h ?_ ?_ ?_
  · exact fun e events h _ => h.tried hawaits
  · intro p events h
    refine does_seq (R := fun r events => (∃ u, r = .ok u) ∧ Settled c events) ?_ ?_ ?_
    · split
      · apply does_op .selfInterrupt
        exact fun _ => ⟨⟨_, rfl⟩, h.cons trivial⟩
      · exact does_pure ⟨⟨_, rfl⟩, h⟩
    · rintro e events ⟨⟨u, hu⟩, -⟩
      cases hu
    · rintro u events ⟨-, h⟩
      exact does_pure h.tried
  · intro p events h hp
    refine does_seq (parksInterrupted_does h hp) ?_ ?_
    · rintro e events ⟨b, hb, -⟩
      cases hb
    · rintro again events ⟨b, -, h⟩
      exact does_pure h

theorem doAcquireSharedInterruptibly_does (hc : ¬ c.Signals) (hawaits : ¬ c.Awaits)
    (h : Idle c events) :
    Does c (doAcquireSharedInterruptibly t arg) (fun _ => Settled c) events := by
  refine does_lift_seq (addWaiter_does hc h) ?_ ?_
  · rintro e events ⟨node, hnode, -⟩
    cases hnode
  rintro node events ⟨n, hn, h⟩
  cases hn
  refine finally_does ?_ fun events h hfailed => does_lift.mpr (cancelAcquire_does hc h hfailed)
  refine try_lift_seq (fun p events h hp => attemptShared_does hawaits hc h hp) h ?_ ?_ ?_
  · exact fun e events h _ => h.tried hawaits
  · exact fun p events h => does_pure h.tried
  · intro p events h hp
    refine does_lift_seq (parksInterrupted_does h hp) ?_ ?_
    · rintro e events ⟨b, hb, -⟩
      cases hb
    · rintro saw events ⟨b, -, h⟩
      split
      · exact does_throw (h.tried hawaits)
      · exact does_pure (h.tried hawaits)

end Cancel

end BigPlan.QueuedSynchronizer
