import BigPlan.Lock.QueueSteps
import Mathlib.Data.List.Nodup

/-!
# What holds of the sync queue in a run

As long as the condition is used by the holder only and the signals are noticed, what the calls
have seen of the queue is so, its links skip no node that waits, and no two calls append the same
node.
-/
namespace BigPlan.QueuedSynchronizer

open Lib Lib.Java Lib.Runs Program Node

variable {T : Type} {c : Call} {events : Events T} {o : Op T} {n : Ref}

/-! ## What is allowed -/

section Allowed

theorem Allowed.of_append {field : Field} {expect : Option Ref}
    (h : Allowed c (.compareAndSet field expect (some n) .append) events) :
    field = .tail ∧ ∃ p rest, expect = some p ∧
      events = ⟨.set (.prev n) (some p), ()⟩ :: rest ∧ Holds c n rest := by
  cases h with
  | inert h => exact h.elim
  | append h => exact ⟨rfl, _, _, rfl, rfl, h⟩

theorem Allowed.of_newNode {thread : Option T} {ws : ℤ} {w : Option Ref}
    (h : Allowed c (.newNode thread ws w) events) :
    thread = none ∧ w = none ∧ ws = 0 ∨ (∃ u, thread = some u) ∧
      (ws = 0 ∧ ¬ c.Signals ∨ ws = CONDITION ∧ c.Awaits) := by
  cases h with
  | inert h => exact h.elim
  | makeFirst => exact .inl ⟨rfl, rfl, rfl⟩
  | make hc => exact .inr ⟨⟨_, rfl⟩, .inl ⟨rfl, hc⟩⟩
  | makeWaiter hc => exact .inr ⟨⟨_, rfl⟩, .inr ⟨rfl, hc⟩⟩

theorem Allowed.of_cancelWait {expect update : ℤ}
    (h : Allowed c (.compareAndSetWaitStatus n expect update .cancelWait) events) :
    expect = CONDITION ∧ update = 0 ∧ c.Awaits ∧ Made n events := by
  cases h with
  | inert h => cases h.2.2.2
  | cancelWait hc hmade => exact ⟨rfl, rfl, hc, hmade⟩

theorem Allowed.of_setWaitStatus {ws : ℤ} (h : Allowed c (.setWaitStatus n ws) events) :
    ws = CANCELLED ∧ Made n events ∧ ¬ Heads n events ∧ (c.Awaits → Failed events) := by
  cases h with
  | inert h => exact h.elim
  | cancel hmade hheads hc => exact ⟨rfl, hmade, hheads, hc⟩

theorem Allowed.of_lead (h : Allowed c (.set .head (some n)) events) : Made n events := by
  cases h with
  | inert h => exact h.elim
  | lead hmade => exact hmade

theorem Allowed.of_leadFirst
    (h : Allowed c (.compareAndSet .head none (some n) .other) events) :
    ∃ rest, events = ⟨.newNode none 0 none, n⟩ :: rest := by
  cases h with
  | inert h => exact h.elim
  | leadFirst => exact ⟨_, rfl⟩

theorem Allowed.of_take (h : Allowed c (.set (.nextWaiter n) none) events) (hc : c.Signals) :
    Granted events := by
  cases h with
  | inert h htakes => exact absurd trivial (htakes hc)
  | take _ hgranted => exact hgranted

/-! Who writes the links of the queue. -/

section Writes

variable {m : Memory T} {x : Ref}

theorem not_writes_of_inert (h : Inert o) :
    ¬ m.Writes o .head ∧ ¬ m.Writes o .tail ∧ ∀ x, ¬ m.Writes o (.prev x) := by
  cases o with
  | compareAndSet | newNode => exact h.elim
  | set field v =>
    cases field with
    | head | tail | prev => exact h.elim
    | _ => simp [Memory.Writes]
  | _ => exact ⟨id, id, fun _ => id⟩

theorem Allowed.writes_head (h : Allowed c o events) (hw : m.Writes o .head) :
    (∃ node p, o = .set .head (some node) ∧ Made node events ∧ Ahead node p events) ∨
    ∃ node rest, o = .compareAndSet .head none (some node) .other ∧
      events = ⟨.newNode none 0 none, node⟩ :: rest := by
  cases h with
  | inert hinert => exact absurd hw (not_writes_of_inert hinert).1
  | lead hmade _ hahead => exact .inl ⟨_, _, rfl, hmade, hahead⟩
  | leadFirst => exact .inr ⟨_, _, rfl, rfl⟩
  | interrupted | selfInterrupt | cancelWait | cancel => exact hw.elim
  | makeFirst | make | makeWaiter | take | prepare | append | begin | unlinkHead | relink | cut |
    linkNext | bypass => cases hw

theorem Allowed.writes_tail (h : Allowed c o events) (hw : m.Writes o .tail) :
    (∃ p q purpose, o = .compareAndSet .tail (some p) (some q) purpose) ∨
    ∃ node v rest, events = ⟨.get .head, v⟩ ::
      ⟨.compareAndSet .head none (some node) .other, true⟩ :: rest := by
  cases h with
  | inert hinert => exact absurd hw (not_writes_of_inert hinert).2.1
  | append | cut => exact .inl ⟨_, _, _, rfl⟩
  | begin => exact .inr ⟨_, _, _, rfl⟩
  | interrupted | selfInterrupt | cancelWait | cancel => exact hw.elim
  | makeFirst | make | makeWaiter | take | prepare | leadFirst | lead | unlinkHead | relink |
    linkNext | bypass => cases hw

theorem Allowed.writes_prev (h : Allowed c o events) (hw : m.Writes o (.prev x)) :
    (o = .set (.prev x) none ∧ Heads x events) ∨
    ∃ p, o = .set (.prev x) (some p) ∧ (Holds c x events ∨ Ahead x p events) := by
  cases h with
  | inert hinert => exact absurd hw ((not_writes_of_inert hinert).2.2 x)
  | unlinkHead hheads =>
    cases hw
    exact .inl ⟨rfl, hheads⟩
  | prepare hholds =>
    cases hw
    exact .inr ⟨_, rfl, .inl hholds⟩
  | relink hahead =>
    cases hw
    exact .inr ⟨_, rfl, .inr hahead⟩
  | interrupted | selfInterrupt | cancelWait | cancel => exact hw.elim
  | makeFirst | make | makeWaiter | take | append | begin | leadFirst | lead | linkNext |
    bypass | cut => cases hw

theorem Allowed.writes_next (h : Allowed c o events) (hw : m.Writes o (.next x)) :
    o = .set (.next x) none ∨ Joined x events ∨ ∃ y, Ahead y x events := by
  cases h with
  | inert hinert =>
    cases o with
    | set field v =>
      cases hw
      cases (show v = none from hinert)
      exact .inl rfl
    | compareAndSet | newNode => exact hinert.elim
    | _ => exact hw.elim
  | linkNext hnode =>
    cases hw
    exact .inr hnode
  | bypass hnode =>
    cases hw
    exact .inr (.inr hnode)
  | interrupted | selfInterrupt | cancelWait | cancel => exact hw.elim
  | makeFirst | make | makeWaiter | take | prepare | append | begin | leadFirst | lead |
    unlinkHead | relink | cut => cases hw

end Writes

/-- The status of a node changes when it is made or cancelled, when its wait is cancelled, or from
one that is not positive to another one. -/
theorem waitStatus_perform [DecidableEq T] (h : Allowed c o events) (m : Memory T) (t : T)
    (input : Input) (n : Ref) :
    (m.perform t input o).1.waitStatus n = m.waitStatus n ∨
    (∃ thread ws w, o = .newNode thread ws w ∧ n = m.fresh ∧
      (m.perform t input o).1.waitStatus n = ws) ∨
    (o = .setWaitStatus n CANCELLED ∧ (m.perform t input o).1.waitStatus n = CANCELLED) ∨
    (m.waitStatus n ≤ 0 ∧ (m.perform t input o).1.waitStatus n ≤ 0 ∧
      (m.perform t input o).1.waitStatus n ≠ CONDITION) := by
  cases o with
  | newNode thread ws w =>
    by_cases hn : n = m.fresh
    · subst hn
      exact .inr (.inl ⟨thread, ws, w, rfl, rfl, Function.update_self ..⟩)
    · exact .inl (Function.update_of_ne hn ..)
  | setWaitStatus node ws =>
    obtain ⟨rfl, -⟩ := h.of_setWaitStatus
    by_cases hn : n = node
    · subst hn
      exact .inr (.inr (.inl ⟨rfl, Function.update_self ..⟩))
    · exact .inl (Function.update_of_ne hn ..)
  | compareAndSetWaitStatus node expect update purpose =>
    by_cases hws : m.waitStatus node = expect
    swap
    · rw [Memory.perform_compareAndSetWaitStatus_of_ne hws]
      exact .inl rfl
    rw [Memory.perform_compareAndSetWaitStatus_of_eq hws, Memory.waitStatus_setWaitStatus]
    split
    swap
    · exact .inl rfl
    rename_i hn
    subst hn
    have hupdate : expect ≤ 0 ∧ update ≤ 0 ∧ update ≠ CONDITION := by
      cases h with
      | inert h => exact ⟨h.1, h.2.1, h.2.2.1⟩
      | cancelWait => exact ⟨by decide, by decide, by decide⟩
    obtain ⟨hexpect, hupdate⟩ := hupdate
    exact .inr (.inr (.inr ⟨hws ▸ hexpect, hupdate⟩))
  | compareAndSet field expect update purpose =>
    simp only [Memory.perform]
    split <;> exact .inl rfl
  | _ => exact .inl rfl

variable [DecidableEq T] {m : Memory T} {t : T} {input : Input}

theorem gone_of_perform (h : Allowed c o events)
    (hgone : 0 < (m.perform t input o).1.waitStatus n) :
    0 < m.waitStatus n ∨ o = .setWaitStatus n CANCELLED := by
  rcases waitStatus_perform h m t input n with
    heq | ⟨thread, ws, w, rfl, -, heq⟩ | ⟨ho, -⟩ | ⟨-, hle, -⟩
  · exact .inl (heq ▸ hgone)
  · have hws : ws ≤ 0 := by
      rcases h.of_newNode with ⟨-, -, rfl⟩ | ⟨-, ⟨rfl, -⟩ | ⟨rfl, -⟩⟩ <;> decide
    omega
  · exact .inr ho
  · omega

theorem gone_perform (h : Allowed c o events) (hlt : n < m.fresh) (hgone : 0 < m.waitStatus n) :
    0 < (m.perform t input o).1.waitStatus n := by
  rcases waitStatus_perform h m t input n with
    heq | ⟨thread, ws, w, -, rfl, -⟩ | ⟨-, heq⟩ | ⟨hle, -⟩
  · exact heq ▸ hgone
  · exact absurd hlt (Nat.lt_irrefl _)
  · rw [heq]
    decide
  · omega

theorem condition_of_perform (h : Allowed c o events)
    (hcondition : (m.perform t input o).1.waitStatus n = CONDITION) :
    m.waitStatus n = CONDITION ∨
      n = m.fresh ∧ c.Awaits ∧ ∃ thread w, o = .newNode thread CONDITION w := by
  rcases waitStatus_perform h m t input n with
    heq | ⟨thread, ws, w, rfl, hn, heq⟩ | ⟨-, heq⟩ | ⟨-, -, hne⟩
  · exact .inl (heq ▸ hcondition)
  · have hws : ws = CONDITION := heq.symm.trans hcondition
    subst hws
    rcases h.of_newNode with ⟨-, -, hws⟩ | ⟨-, ⟨hws, -⟩ | ⟨-, hc⟩⟩
    · exact absurd hws (by decide)
    · exact absurd hws (by decide)
    · exact .inr ⟨hn, hc, thread, w, rfl⟩
  · exact absurd (heq.symm.trans hcondition) (by decide)
  · exact absurd hcondition hne

end Allowed

/-! ## Nodes to append -/

section Holds

variable {e : Event (Op T) (Op.Answer T)}

theorem holds_cons (h : Holds c n (e :: events)) :
    Holds c n events ∧ ¬ Appends n e ∨
    ¬ c.Signals ∧ (∃ t mode, e = ⟨.newNode (some t) 0 mode, n⟩) ∨
    ¬ c.Signals ∧ e = ⟨.compareAndSetWaitStatus n CONDITION 0 .cancelWait, true⟩ ∨
    c.Signals ∧ e = ⟨.set (.nextWaiter n) none, ()⟩ := by
  cases h with
  | made hc => exact .inr (.inl ⟨hc, _, _, rfl⟩)
  | cancelled hc => exact .inr (.inr (.inl ⟨hc, rfl⟩))
  | taken hc => exact .inr (.inr (.inr ⟨hc, rfl⟩))
  | later h he => exact .inl ⟨h, he⟩

/-- What a signal holds it has taken. -/
theorem Holds.unlinked (h : Holds c n events) (hc : c.Signals) : Unlinked n events := by
  induction h with
  | made hnot | cancelled hnot => exact absurd hc hnot
  | taken => exact List.mem_cons_self
  | later _ _ ih => exact List.mem_cons_of_mem _ ih

theorem Appended.cons (h : Appended n events) : Appended n (e :: events) :=
  h.mono (List.subset_cons_self e events)

/-- What a signal has taken it still holds, or it has appended it. -/
theorem Unlinked.holds_or (h : Unlinked n events) (hc : c.Signals) :
    Holds c n events ∨ Appended n events := by
  induction events with
  | nil => cases h
  | cons e events ih =>
    rcases List.mem_cons.mp h with rfl | h
    · exact .inl (.taken hc)
    rcases ih h with hholds | happended
    · by_cases he : Appends n e
      · obtain ⟨field, expect, rfl⟩ := he
        exact .inr ⟨field, expect, List.mem_cons_self⟩
      · exact .inl (.later hholds he)
    · exact .inr happended.cons

end Holds

namespace State

/-! ## What a turn is about to do -/

variable {s s' : State T} {t : T} {input : Input}

/-- A signal has taken the node from the condition queue. -/
def TakenBySignal (s : State T) (node : Ref) : Prop :=
  s.Logged Call.Signals ⟨.set (.nextWaiter node) none, ()⟩

variable [DecidableEq T]

/-- The turn performs an operation that is allowed, the condition is used by the holder only, and
the signals are noticed. -/
structure Proceeds (s s' : State T) (t : T) (c : Call) (events : Events T) (input : Input)
    (o : Op T) : Prop extends s.Performs s' t c events input o where
  running : s.InCall t c events
  allowed : Allowed c o events
  succeeds : c.Awaits → ¬ Failed [(⟨o, (s.memory.perform t input o).2⟩ : Event _ (Op.Answer T))]
  holder : Granted [(⟨o, (s.memory.perform t input o).2⟩ : Event _ (Op.Answer T))] →
    ∀ u c' events', s.InCall u c' events' → Granted events' → u = t
  taking : c.Signals → ∀ node, o = .set (.nextWaiter node) none →
    s.memory.waitStatus node = CONDITION ∧ node ∉ s.memory.appended
  cancelling : ∀ node, o = .compareAndSetWaitStatus node CONDITION 0 .cancelWait →
    s.TakenBySignal node → s.memory.waitStatus node ≠ CONDITION

/-! ## What holds in a run -/

/-- What the calls have seen is so. -/
structure Witnessed (s : State T) : Prop where
  unbroken : ∀ {c events}, s.Has c events → ¬ Broken events
  unfailed : ∀ {c events}, s.Has c events → c.Awaits → ¬ Failed events
  joined : ∀ {c events n}, s.Has c events → Joined n events → s.queue.Known n
  ahead : ∀ {c events x p}, s.Has c events → Ahead x p events → s.queue.Follows x p
  read_head : ∀ {n}, s.Logged (fun _ => True) ⟨.get .head, some n⟩ → s.Headed n
  positive : ∀ {c events n}, s.Has c events → Positive n events → 0 < s.memory.waitStatus n
  left : ∀ {c events n}, s.Has c events → Left n events → 0 < s.memory.waitStatus n
  appended : ∀ {c events n}, s.Has c events → Appended n events → n ∈ s.memory.appended

/-- The links of the queue, and the nodes that may be in it. -/
structure Placed (s : State T) : Prop where
  linked : s.queue.Linked
  head : ∀ {n}, s.memory.field .head = some n → s.Headed n
  tail : s.memory.field .head = none → s.memory.field .tail = none
  next : ∀ {x n}, s.memory.field (.next x) = some n → s.queue.Known x
  prev : ∀ {x p}, s.memory.field (.prev x) = some p →
    x ∈ s.memory.appended ∨ ∃ c events, s.Has c events ∧ Holds c x events
  first : ∀ {n}, s.Logged (fun _ => True) ⟨.compareAndSet .head none (some n) .other, true⟩ →
    n ∉ s.memory.appended
  nodup : s.memory.appended.Nodup
  appended_lt : ∀ {n}, n ∈ s.memory.appended → n < s.memory.fresh
  headed_lt : ∀ {n}, s.Headed n → n < s.memory.fresh
  gone_lt : ∀ {n}, 0 < s.memory.waitStatus n → n < s.memory.fresh
  condition_lt : ∀ {n}, s.memory.waitStatus n = CONDITION → n < s.memory.fresh

/-- A call that has just made its first node the head, and may have read the head since. -/
def Starts (events : Events T) (node : Ref) : Prop :=
  ∃ rest, events = ⟨.compareAndSet .head none (some node) .other, true⟩ :: rest ∨
    ∃ v, events = ⟨.get .head, v⟩ :: ⟨.compareAndSet .head none (some node) .other, true⟩ :: rest

/-- What each call has for itself: the nodes that it has made, those that it is to append, and the
start of the queue. -/
structure Parted (s : State T) : Prop where
  made_lt : ∀ {t c events n}, s.InCall t c events → Made n events → n < s.memory.fresh
  made_once : ∀ {t c events u c' events' n}, s.InCall t c events → s.InCall u c' events' →
    Made n events → Made n events' → t = u
  left_own : ∀ {t c events n}, s.InCall t c events → Made n events → 0 < s.memory.waitStatus n →
    Left n events
  head_own : ∀ {t c events n}, s.InCall t c events → Made n events → s.Headed n → Heads n events
  held : ∀ {t c events n}, s.InCall t c events → Holds c n events →
    n ∉ s.memory.appended ∧ ¬ s.Headed n ∧ n < s.memory.fresh
  held_status : ∀ {t c events n}, s.InCall t c events → Holds c n events → ¬ c.Signals →
    s.memory.waitStatus n ≠ CONDITION
  held_once : ∀ {t c events u c' events' n}, s.InCall t c events → s.InCall u c' events' →
    Holds c n events → Holds c' n events' → t = u
  prepared : ∀ {t c n p rest}, s.InCall t c (⟨.set (.prev n) (some p), ()⟩ :: rest) →
    Holds c n rest → s.memory.field (.prev n) = some p
  dummy : ∀ {t c n rest}, s.InCall t c (⟨.newNode none 0 none, n⟩ :: rest) →
    n ∉ s.memory.appended ∧ s.memory.waitStatus n ≤ 0 ∧ s.memory.waitStatus n ≠ CONDITION ∧
      n < s.memory.fresh
  dummy_own : ∀ {t c n rest u c' events'}, s.InCall t c (⟨.newNode none 0 none, n⟩ :: rest) →
    s.InCall u c' events' → ¬ Made n events' ∧ ¬ Holds c' n events'
  started : ∀ {t c events n}, s.InCall t c events → Starts events n →
    s.memory.field .head = some n ∧ s.memory.field .tail = none
  started_read : ∀ {t c n v rest}, s.InCall t c
    (⟨.get .head, v⟩ :: ⟨.compareAndSet .head none (some n) .other, true⟩ :: rest) → v = some n
  started_once : ∀ {t c events u c' events' n n'}, s.InCall t c events → s.InCall u c' events' →
    Starts events n → Starts events' n' → t = u

/-- Which nodes the signals take, and which waits are cancelled. -/
structure Signed (s : State T) : Prop where
  settled : ∀ d ∈ s.completed, EndsWell d.call d.result d.events
  born : ∀ {t c events n}, s.InCall t c events → Made n events →
    s.memory.waitStatus n = CONDITION → c.Awaits
  taken : ∀ {n}, s.TakenBySignal n → n < s.memory.fresh ∧ s.memory.waitStatus n ≤ 0
  taken_own : ∀ {t c events n}, s.TakenBySignal n → s.InCall t c events → Made n events → c.Awaits
  cancelled : ∀ {c events n}, s.Has c events → WaitCancelled n events →
    n < s.memory.fresh ∧ s.memory.waitStatus n ≠ CONDITION ∧ ¬ s.TakenBySignal n
  waiting : ∀ {n}, s.memory.waitStatus n = CONDITION → s.queue.Known n → s.TakenBySignal n
  transferred : ∀ {c events n}, s.Has c events → c.Signals → Appended n events →
    Unlinked n events
  granted : ∀ {c events n}, s.Has c events → c.Signals → Unlinked n events → Granted events
  granted_once : ∀ {t c events u c' events'}, s.InCall t c events → s.InCall u c' events' →
    Granted events → Granted events' → t = u
  held_or : ∀ {c events n}, s.Has c events → WaitCancelled n events →
    Holds c n events ∨ Appended n events
  noticed : ∀ d ∈ s.completed, d.call.Signals → ∀ n, Unlinked n d.events →
    s.memory.waitStatus n ≠ CONDITION

structure Orderly (s : State T) : Prop extends Witnessed s, Placed s, Parted s, Signed s where
  keeps : s.Keeps Lawful fun c r events => Broken events ∨ EndsWell c r events

section Orderly

variable (h : s.Orderly)
include h

omit [DecidableEq T] in
theorem Orderly.not_known (hin : s.InCall t c events) (hholds : Holds c n events) :
    ¬ s.queue.Known n := by
  obtain ⟨hmem, hheaded, -⟩ := h.held hin hholds
  rintro (hknown | hknown)
  · exact hmem hknown
  · exact hheaded hknown

omit [DecidableEq T] in
/-- A completed call has nothing left to append. -/
theorem Orderly.inCall_of_holds (hhas : s.Has c events) (hholds : Holds c n events) :
    ∃ t, s.InCall t c events := by
  cases hhas with
  | @running t r hrun => exact ⟨t, r, hrun, rfl, rfl⟩
  | completed hd => exact absurd hholds ((h.settled _ hd).1 n)

omit [DecidableEq T] in
/-- The first node has no node ahead of it. -/
theorem Orderly.prev_eq_none (hmem : n ∉ s.memory.appended)
    (hholds : ∀ t c events, s.InCall t c events → ¬ Holds c n events) :
    s.memory.field (.prev n) = none := by
  cases hprev : s.memory.field (.prev n) with
  | none => rfl
  | some p =>
    rcases h.prev hprev with hknown | ⟨c, events, hhas, hn⟩
    · exact absurd hknown hmem
    · obtain ⟨t, hin⟩ := h.inCall_of_holds hhas hn
      exact absurd hn (hholds t c events hin)

end Orderly

/-! ## The queue in one step -/

section Queue

omit [DecidableEq T] in
theorem queue_eq {q : LazyQueue Ref} (horder : s.memory.appended = q.order)
    (hheaded : ∀ n, s.Headed n ↔ q.headed n) (hgone : ∀ n, 0 < s.memory.waitStatus n ↔ q.gone n)
    (htail : s.memory.field .tail = q.tail) (hprev : ∀ n, s.memory.field (.prev n) = q.prev n) :
    s.queue = q := by
  apply LazyQueue.ext horder _ _ htail (funext hprev)
  · exact funext fun n => propext (hheaded n)
  · exact funext fun n => propext (hgone n)

variable (h : s.Orderly) (p : s.Proceeds s' t c events input o)
include p

theorem Proceeds.headed : s'.Headed n ↔ s.Headed n ∨
    (⟨.set .head (some n), ()⟩ : Event (Op T) (Op.Answer T)) =
      ⟨o, (s.memory.perform t input o).2⟩ ∨
    (⟨.compareAndSet .head none (some n) .other, true⟩ : Event (Op T) (Op.Answer T)) =
      ⟨o, (s.memory.perform t input o).2⟩ := by
  rw [Headed, Headed, p.logged p.running.has, p.logged p.running.has, true_and, true_and]
  tauto

/-- The head is as it was. -/
theorem Proceeds.headed_of_not (hhead : ¬ s.memory.Writes o .head) : s'.Headed n ↔ s.Headed n := by
  rw [p.headed, or_iff_left]
  rintro (heq | heq)
  · obtain rfl := congrArg Event.op heq
    exact hhead rfl
  · obtain rfl := congrArg Event.op heq
    exact hhead rfl

include h

theorem Proceeds.gone_of_not (hws : ∀ n ws, o ≠ .setWaitStatus n ws) :
    0 < s'.memory.waitStatus n ↔ 0 < s.memory.waitStatus n := by
  rw [p.memory]
  constructor
  · exact fun hgone => (gone_of_perform p.allowed hgone).resolve_right (hws n _)
  · exact fun hgone => gone_perform p.allowed (h.gone_lt hgone) hgone

/-- An operation that writes no link of the queue. -/
theorem Proceeds.queue_rest (hws : ∀ n ws, o ≠ .setWaitStatus n ws)
    (hhead : ¬ s.memory.Writes o .head) (htail : ¬ s.memory.Writes o .tail)
    (hprev : ∀ n, ¬ s.memory.Writes o (.prev n)) : s'.queue = s.queue := by
  apply queue_eq
  · rw [p.memory]
    rcases s.memory.appended_perform t input o with heq | ⟨field, expect, n, rfl, -⟩
    · exact heq
    · obtain ⟨rfl, -⟩ := p.allowed.of_append
      exact absurd rfl htail
  · exact fun n => p.headed_of_not hhead
  · exact fun n => p.gone_of_not h hws
  · rw [p.memory]
    exact Memory.field_perform htail
  · intro n
    rw [p.memory]
    exact Memory.field_perform (hprev n)

/-- A compare-and-set that finds another value. -/
theorem Proceeds.queue_failed {field : Field} {expect update : Option Ref} {purpose : Purpose}
    (ho : o = .compareAndSet field expect update purpose) (hne : s.memory.field field ≠ expect) :
    s'.queue = s.queue := by
  subst ho
  have hperform : s.memory.perform t input (.compareAndSet field expect update purpose) = _ :=
    Memory.perform_compareAndSet_of_ne hne
  have hmemory : s'.memory = s.memory := p.memory.trans (congrArg Prod.fst hperform)
  apply queue_eq
  · exact congrArg Memory.appended hmemory
  · intro n
    rw [p.headed, or_iff_left]
    · rfl
    · rintro (heq | heq)
      · cases congrArg Event.op heq
      · rw [hperform] at heq
        cases heq
  · exact fun n => p.gone_of_not h (fun n ws heq => by cases heq)
  · rw [hmemory]
    rfl
  · intro n
    rw [hmemory]
    rfl

theorem Proceeds.queue_setPrev {v : Option Ref} (ho : o = .set (.prev n) v) :
    s'.queue = s.queue.link n v := by
  subst ho
  apply queue_eq
  · rw [p.memory]
    rfl
  · exact fun n => p.headed_of_not (by simp [Memory.Writes])
  · exact fun n => p.gone_of_not h (fun n ws heq => by cases heq)
  · rw [p.memory]
    exact Memory.field_perform (by simp [Memory.Writes])
  · intro x
    rw [p.memory]
    show (s.memory.set (.prev n) v).field (.prev x) = Function.update s.queue.prev n v x
    rw [Memory.field_set, Function.update_apply]
    by_cases hx : x = n
    · rw [if_pos hx, if_pos (congrArg _ hx)]
    · rw [if_neg hx, if_neg fun heq => hx (Field.prev.inj heq)]
      rfl

theorem Proceeds.queue_setTail {x : Ref} (ho : o = .set .tail (some x)) :
    s'.queue = s.queue.endAt x := by
  subst ho
  apply queue_eq
  · rw [p.memory]
    rfl
  · exact fun n => p.headed_of_not (by simp [Memory.Writes])
  · exact fun n => p.gone_of_not h (fun n ws heq => by cases heq)
  · rw [p.memory]
    exact (Memory.field_set ..).trans (if_pos rfl)
  · intro n
    rw [p.memory]
    exact Memory.field_perform (by simp [Memory.Writes])

theorem Proceeds.queue_append {x y : Ref}
    (ho : o = .compareAndSet .tail (some x) (some y) .append)
    (htail : s.memory.field .tail = some x) : s'.queue = s.queue.append y := by
  subst ho
  have hperform : s.memory.perform t input (.compareAndSet .tail (some x) (some y) .append) = _ :=
    Memory.perform_compareAndSet_of_eq htail
  have hmemory := p.memory.trans (congrArg Prod.fst hperform)
  apply queue_eq
  · rw [hmemory]
    rfl
  · exact fun n => p.headed_of_not (by simp [Memory.Writes])
  · exact fun n => p.gone_of_not h (fun n ws heq => by cases heq)
  · rw [hmemory]
    show (s.memory.set .tail (some y)).field .tail = some y
    rw [Memory.field_set, if_pos rfl]
  · intro n
    rw [p.memory]
    exact Memory.field_perform (by simp [Memory.Writes])

theorem Proceeds.queue_cut {x y : Ref} (ho : o = .compareAndSet .tail (some x) (some y) .other)
    (htail : s.memory.field .tail = some x) : s'.queue = s.queue.endAt y := by
  subst ho
  have hperform : s.memory.perform t input (.compareAndSet .tail (some x) (some y) .other) = _ :=
    Memory.perform_compareAndSet_of_eq htail
  have hmemory := p.memory.trans (congrArg Prod.fst hperform)
  apply queue_eq
  · rw [hmemory]
    rfl
  · exact fun n => p.headed_of_not (by simp [Memory.Writes])
  · exact fun n => p.gone_of_not h (fun n ws heq => by cases heq)
  · rw [hmemory]
    show (s.memory.set .tail (some y)).field .tail = some y
    rw [Memory.field_set, if_pos rfl]
  · intro n
    rw [p.memory]
    exact Memory.field_perform (by simp [Memory.Writes])

theorem Proceeds.queue_lead {y : Ref} (ho : o = .set .head (some y)) :
    s'.queue = s.queue.lead y := by
  subst ho
  apply queue_eq
  · rw [p.memory]
    rfl
  · intro n
    rw [p.headed, or_comm]
    refine or_congr_left ⟨?_, ?_⟩
    · rintro (heq | heq)
      · cases heq
        rfl
      · cases congrArg Event.op heq
    · rintro rfl
      exact .inl rfl
  · exact fun n => p.gone_of_not h (fun n ws heq => by cases heq)
  · rw [p.memory]
    exact Memory.field_perform (by simp [Memory.Writes])
  · intro n
    rw [p.memory]
    exact Memory.field_perform (by simp [Memory.Writes])

theorem Proceeds.queue_leadFirst {y : Ref}
    (ho : o = .compareAndSet .head none (some y) .other) (hhead : s.memory.field .head = none) :
    s'.queue = s.queue.lead y := by
  subst ho
  have hperform : s.memory.perform t input (.compareAndSet .head none (some y) .other) = _ :=
    Memory.perform_compareAndSet_of_eq hhead
  have hmemory := p.memory.trans (congrArg Prod.fst hperform)
  apply queue_eq
  · rw [hmemory]
    rfl
  · intro n
    rw [p.headed, or_comm]
    refine or_congr_left ⟨?_, ?_⟩
    · rintro (heq | heq)
      · cases congrArg Event.op heq
      · cases congrArg Event.op heq
        rfl
    · rintro rfl
      rw [hperform]
      exact .inr rfl
  · exact fun n => p.gone_of_not h (fun n ws heq => by cases heq)
  · rw [p.memory]
    exact Memory.field_perform (by simp [Memory.Writes])
  · intro n
    rw [p.memory]
    exact Memory.field_perform (by simp [Memory.Writes])

omit h in
theorem Proceeds.queue_leave {y : Ref} (ho : o = .setWaitStatus y CANCELLED) :
    s'.queue = s.queue.leave y := by
  subst ho
  apply queue_eq
  · rw [p.memory]
    rfl
  · exact fun n => p.headed_of_not id
  · intro n
    rw [p.memory]
    show 0 < (s.memory.setWaitStatus y CANCELLED).waitStatus n ↔ n = y ∨ 0 < s.memory.waitStatus n
    rw [Memory.waitStatus_setWaitStatus]
    by_cases hn : n = y
    · rw [if_pos hn]
      exact iff_of_true (by decide) (.inl hn)
    · rw [if_neg hn, or_iff_right hn]
  · rw [p.memory]
    rfl
  · intro n
    rw [p.memory]
    rfl

/-- Every step of the synchronizer is one of the queue. -/
theorem Proceeds.queue_step : s.queue.Step s'.queue := by
  have hhas := p.running.has
  have hallowed := p.allowed
  have hrest : (∀ n ws, o ≠ .setWaitStatus n ws) → ¬ s.memory.Writes o .head →
      ¬ s.memory.Writes o .tail → (∀ n, ¬ s.memory.Writes o (.prev n)) →
      s.queue.Step s'.queue := fun hws hhead htail hprev =>
    p.queue_rest h hws hhead htail hprev ▸ .rest
  cases hallowed with
  | inert hinert =>
    obtain ⟨hhead, htail, hprev⟩ := not_writes_of_inert (m := s.memory) hinert
    refine hrest (fun n ws ho => ?_) hhead htail hprev
    subst ho
    exact hinert
  | interrupted | selfInterrupt | cancelWait => exact hrest (by simp) id id fun _ => id
  | makeFirst | make | makeWaiter | take | linkNext | bypass =>
    exact hrest (by simp) (by simp [Memory.Writes]) (by simp [Memory.Writes])
      (by simp [Memory.Writes])
  | @prepare node x _ hholds =>
    rw [p.queue_setPrev h rfl]
    refine .link (fun _ hknown _ => absurd hknown (h.not_known p.running hholds)) ?_
    exact fun _ hv => by cases hv
  | @append node x rest hholds =>
    by_cases htail : s.memory.field .tail = some x
    swap
    · rw [p.queue_failed h rfl htail]
      exact .rest
    rw [p.queue_append h rfl htail]
    have hnot := h.not_known p.running (.later hholds (not_appends fun _ _ heq => by cases heq))
    exact .append hnot htail (h.prepared p.running hholds)
  | @leadFirst node rest =>
    by_cases hhead : s.memory.field .head = none
    swap
    · rw [p.queue_failed h rfl hhead]
      exact .rest
    rw [p.queue_leadFirst h rfl hhead]
    obtain ⟨hmem, hws, -⟩ := h.dummy p.running
    refine .leadFirst hmem (h.prev_eq_none hmem fun u c' events' hin => ?_) ?_
    · exact (h.dummy_own p.running hin).2
    · exact fun hgone => absurd hgone (Int.not_lt.mpr hws)
  | @begin node v rest =>
    obtain rfl := h.started_read p.running
    rw [p.queue_setTail h rfl]
    obtain ⟨hhead, htail⟩ := h.started p.running ⟨rest, .inr ⟨_, rfl⟩⟩
    exact .begin htail (h.head hhead)
  | @lead node x _ hmade hleft hahead hread =>
    rw [p.queue_lead h rfl]
    refine .lead (h.ahead hhas hahead) (h.read_head ⟨c, _, hhas, trivial, hread⟩) fun hgone => ?_
    exact hleft (h.left_own p.running hmade hgone)
  | @unlinkHead node _ hheads =>
    rw [p.queue_setPrev h rfl]
    refine .link (fun _ _ hv => by cases hv) fun _ _ => ?_
    exact .inl ⟨c, _, hhas, trivial, hheads⟩
  | @relink node x _ hahead =>
    rw [p.queue_setPrev h rfl]
    refine .link (fun y _ hv => ?_) fun _ hv => by cases hv
    cases hv
    exact h.ahead hhas hahead
  | @cancel node _ hmade hheads hc =>
    rw [p.queue_leave rfl]
    exact .leave fun hheaded => hheads (h.head_own p.running hmade hheaded)
  | @cut node x _ hleft hahead =>
    by_cases htail : s.memory.field .tail = some node
    swap
    · rw [p.queue_failed h rfl htail]
      exact .rest
    rw [p.queue_cut h rfl htail]
    exact .cut htail (h.left hhas hleft) (h.ahead hhas hahead)

end Queue

end State

end BigPlan.QueuedSynchronizer
