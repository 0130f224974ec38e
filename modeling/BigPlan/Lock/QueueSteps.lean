import BigPlan.Lib.LazyQueue
import BigPlan.Lock.WaitMethods

/-!
# The sync queue in a run

The nodes that were appended, those that have been the head or were cancelled, and the links from
the tail form a queue with lazy removal.
-/
namespace BigPlan.QueuedSynchronizer

open Lib Lib.Java Lib.Runs Program Node

variable {T : Type}

/-! ## What an operation writes -/

namespace Memory

variable [DecidableEq T] {m : Memory T} {t : T} {input : Input} {o : Op T}

/-- The operation may write the field. -/
def Writes (m : Memory T) : Op T → Field → Prop
  | .set f _, g | .compareAndSet f _ _ _, g => f = g
  | .newNode _ _ _, g => g = .nextWaiter m.fresh
  | _, _ => False

theorem field_perform {g : Field} (h : ¬ m.Writes o g) :
    (m.perform t input o).1.field g = m.field g := by
  cases o with
  | set f v => exact Function.update_of_ne (fun heq => h heq.symm) ..
  | compareAndSet f expect update purpose =>
    simp only [perform]
    split
    · exact Function.update_of_ne (fun heq => h heq.symm) ..
    · rfl
  | compareAndSetWaitStatus =>
    simp only [perform]
    split <;> rfl
  | newNode => exact Function.update_of_ne h ..
  | _ => rfl

theorem perform_compareAndSet_of_eq {field : Field} {expect update : Option Ref} {purpose : Purpose}
    (h : m.field field = expect) :
    m.perform t input (.compareAndSet field expect update purpose) =
      ({ m.set field update with appended := appends update purpose ++ m.appended }, true) :=
  if_pos h

theorem perform_compareAndSet_of_ne {field : Field} {expect update : Option Ref} {purpose : Purpose}
    (h : m.field field ≠ expect) :
    m.perform t input (.compareAndSet field expect update purpose) = (m, false) := if_neg h

theorem perform_compareAndSetWaitStatus_of_eq {node : Ref} {expect update : ℤ} {purpose : Purpose}
    (h : m.waitStatus node = expect) :
    m.perform t input (.compareAndSetWaitStatus node expect update purpose) =
      (m.setWaitStatus node update, true) := if_pos h

theorem perform_compareAndSetWaitStatus_of_ne {node : Ref} {expect update : ℤ} {purpose : Purpose}
    (h : m.waitStatus node ≠ expect) :
    m.perform t input (.compareAndSetWaitStatus node expect update purpose) = (m, false) := if_neg h

/-- A node is appended, or none. -/
theorem appended_perform (m : Memory T) (t : T) (input : Input) (o : Op T) :
    (m.perform t input o).1.appended = m.appended ∨
      ∃ field expect node, o = .compareAndSet field expect (some node) .append ∧
        m.field field = expect ∧ (m.perform t input o).1.appended = node :: m.appended := by
  cases o with
  | compareAndSet field expect update purpose =>
    by_cases hfield : m.field field = expect
    · rw [perform_compareAndSet_of_eq hfield]
      cases update with
      | none => exact .inl rfl
      | some node =>
        cases purpose with
        | append => exact .inr ⟨field, expect, node, rfl, hfield, rfl⟩
        | cancelWait | other => exact .inl rfl
    · rw [perform_compareAndSet_of_ne hfield]
      exact .inl rfl
  | compareAndSetWaitStatus node expect update purpose =>
    simp only [perform]
    split <;> exact .inl rfl
  | _ => exact .inl rfl

theorem fresh_perform (m : Memory T) (t : T) (input : Input) (o : Op T) :
    (m.perform t input o).1.fresh = m.fresh ∨ ∃ thread ws w, o = .newNode thread ws w ∧
      (m.perform t input o).1.fresh = m.fresh + 1 := by
  cases o with
  | newNode thread ws w => exact .inr ⟨thread, ws, w, rfl, rfl⟩
  | compareAndSet field expect update purpose =>
    simp only [perform]
    split <;> exact .inl rfl
  | compareAndSetWaitStatus node expect update purpose =>
    simp only [perform]
    split <;> exact .inl rfl
  | _ => exact .inl rfl

theorem le_fresh_perform (m : Memory T) (t : T) (input : Input) (o : Op T) :
    m.fresh ≤ (m.perform t input o).1.fresh := by
  obtain hfresh | ⟨-, -, -, -, hfresh⟩ := fresh_perform m t input o
  · exact hfresh.ge
  · exact hfresh ▸ Nat.le_succ m.fresh

end Memory

namespace State

/-! ## What a turn does to the calls -/

/-- The thread is in the call, which has had these events. -/
def InCall (s : State T) (t : T) (c : Call) (events : Events T) : Prop :=
  ∃ r, s.running t = some r ∧ r.call = c ∧ r.events = events

/-- A call of the kind has had the event. -/
def Logged (s : State T) (K : Call → Prop) (e : Event (Op T) (Op.Answer T)) : Prop :=
  ∃ c events, s.Has c events ∧ K c ∧ e ∈ events

theorem InCall.has {s : State T} {t : T} {c : Call} {events : Events T}
    (h : s.InCall t c events) : s.Has c events := by
  obtain ⟨r, hrun, rfl, rfl⟩ := h
  exact .running hrun

/-- The turn leaves the fields, and adds no event. -/
structure Rests (s s' : State T) : Prop where
  field : s'.memory.field = s.memory.field
  waitStatus : s'.memory.waitStatus = s.memory.waitStatus
  fresh : s'.memory.fresh = s.memory.fresh
  appended : s'.memory.appended = s.memory.appended
  inCall : ∀ t c events, s'.InCall t c events → s.InCall t c events ∨ events = []
  has : ∀ c events, s.Has c events → s'.Has c events
  of_has : ∀ c events, s'.Has c events → s.Has c events ∨ events = []

/-- The call is completed in this turn. -/
def Returned (s : State T) (turn : Turn T) (d : Completed T) : Prop :=
  ∃ t call input r, turn = .step t call input ∧ s.running t = some r ∧ r.code = .ret d.result ∧
    d.call = r.call ∧ d.events = r.events

variable [DecidableEq T]

/-- The turn performs an operation in the call. -/
structure Performs (s s' : State T) (t : T) (c : Call) (events : Events T) (input : Input)
    (o : Op T) : Prop where
  memory : s'.memory = (s.memory.perform t input o).1
  completed : s'.completed = s.completed
  inCall : ∀ u c' events', s'.InCall u c' events' →
    u = t ∧ c' = c ∧ events' = ⟨o, (s.memory.perform t input o).2⟩ :: events ∨
      u ≠ t ∧ s.InCall u c' events'
  has : ∀ c' events', s.Has c' events' →
    s'.Has c' events' ∨
      c' = c ∧ events' = events ∧ s'.Has c (⟨o, (s.memory.perform t input o).2⟩ :: events)
  self : s'.Has c (⟨o, (s.memory.perform t input o).2⟩ :: events)
  of_has : ∀ c' events', s'.Has c' events' →
    s.Has c' events' ∨ c' = c ∧ events' = ⟨o, (s.memory.perform t input o).2⟩ :: events

omit [DecidableEq T] in
theorem rests_of_running {s s' : State T} (hfield : s'.memory.field = s.memory.field)
    (hws : s'.memory.waitStatus = s.memory.waitStatus) (hfresh : s'.memory.fresh = s.memory.fresh)
    (happended : s'.memory.appended = s.memory.appended)
    (hrunning : ∀ u r, s'.running u = some r → s.InCall u r.call r.events ∨ r.events = [])
    (hhas : ∀ u r, s.running u = some r → s'.Has r.call r.events)
    (hcompleted : ∀ d ∈ s.completed, d ∈ s'.completed)
    (hof : ∀ d ∈ s'.completed, s.Has d.call d.events) : s.Rests s' where
  field := hfield
  waitStatus := hws
  fresh := hfresh
  appended := happended
  inCall u c events h := by
    obtain ⟨r, hr, rfl, rfl⟩ := h
    exact hrunning u r hr
  has c events h := by
    cases h with
    | @running u r hr => exact hhas u r hr
    | completed hd => exact .completed (hcompleted _ hd)
  of_has c events h := by
    cases h with
    | @running u r hr => exact (hrunning u r hr).imp_left InCall.has
    | completed hd => exact .inl (hof _ hd)

/-- The call of the thread is replaced by one with the same events. -/
theorem rests_put {s s' : State T} {t : T} {r r' : Running T} (hrun : s.running t = some r)
    (hput : s'.running = (s.put t (some r')).running) (hcompleted : s'.completed = s.completed)
    (hcall : r'.call = r.call) (hevents : r'.events = r.events)
    (hfield : s'.memory.field = s.memory.field)
    (hws : s'.memory.waitStatus = s.memory.waitStatus) (hfresh : s'.memory.fresh = s.memory.fresh)
    (happended : s'.memory.appended = s.memory.appended) : s.Rests s' := by
  refine rests_of_running hfield hws hfresh happended ?_ ?_ ?_ ?_
  · intro u r₁ hr
    obtain ⟨rfl, heq⟩ | ⟨-, hold⟩ := running_put ((congrFun hput u).symm.trans hr)
    · cases heq
      exact .inl ⟨r, hrun, hcall.symm, hevents.symm⟩
    · exact .inl ⟨r₁, hold, rfl, rfl⟩
  · intro u r₁ hr
    by_cases hu : u = t
    · subst hu
      cases hrun.symm.trans hr
      exact InCall.has ⟨r', (congrFun hput u).trans (running_put_self s u _), hcall, hevents⟩
    · exact InCall.has ⟨r₁, ((congrFun hput u).trans (running_put_of_ne s hu _)).trans hr, rfl, rfl⟩
  · exact fun d hd => hcompleted ▸ hd
  · exact fun d hd => .completed (hcompleted ▸ hd)

theorem performs_put (s : State T) {t : T} {r : Running T} (hrun : s.running t = some r)
    (input : Input) (o : Op T) (code : Interruptible T Value) :
    s.Performs { s.put t (some { r with
        code := code, events := ⟨o, (s.memory.perform t input o).2⟩ :: r.events }) with
      memory := (s.memory.perform t input o).1 } t r.call r.events input o where
  memory := rfl
  completed := rfl
  inCall u c' events' h := by
    obtain ⟨r', hr', rfl, rfl⟩ := h
    obtain ⟨rfl, heq⟩ | ⟨hu, hold⟩ := running_put hr'
    · cases heq
      exact .inl ⟨rfl, rfl, rfl⟩
    · exact .inr ⟨hu, r', hold, rfl, rfl⟩
  has c' events' h := by
    cases h with
    | @running u r' hr' =>
      by_cases hu : u = t
      · subst hu
        cases hrun.symm.trans hr'
        exact .inr ⟨rfl, rfl, InCall.has ⟨_, running_put_self s u _, rfl, rfl⟩⟩
      · exact .inl (.running ((running_put_of_ne s hu _).trans hr'))
    | completed hd => exact .inl (.completed hd)
  self := InCall.has ⟨_, running_put_self s t _, rfl, rfl⟩
  of_has c' events' h := by
    cases h with
    | running hr' =>
      obtain ⟨rfl, heq⟩ | ⟨-, hold⟩ := running_put hr'
      · cases heq
        exact .inr ⟨rfl, rfl⟩
      · exact .inl (.running hold)
    | completed hd => exact .inl (.completed hd)

theorem rests_or_performs (s : State T) (turn : Turn T) :
    (s.Rests (s.step turn) ∧
      ∀ d ∈ (s.step turn).completed, d ∈ s.completed ∨ s.Returned turn d) ∨
    ∃ t call input r o next, turn = .step t call input ∧ s.running t = some r ∧
      r.code = .perform o next ∧ s.Performs (s.step turn) t r.call r.events input o := by
  have hmoves := s.moves_step turn
  generalize s.step turn = s' at hmoves
  cases hmoves with
  | @performs t call input r o next hrun hop =>
    exact .inr ⟨t, call, input, r, o, next, rfl, hrun, hop, performs_put s hrun input o _⟩
  | unrolls hrun hloop =>
    exact .inl ⟨rests_put hrun rfl rfl rfl rfl rfl rfl rfl rfl, fun d hd => .inl hd⟩
  | interrupts hrun =>
    exact .inl ⟨rests_put hrun rfl rfl rfl rfl rfl rfl rfl rfl, fun d hd => .inl hd⟩
  | interruptsIdle hrun =>
    refine .inl ⟨rests_of_running rfl rfl rfl rfl ?_ ?_ (fun d hd => hd) fun d hd => .completed hd,
      fun d hd => .inl hd⟩
    · exact fun u r hr => .inl ⟨r, hr, rfl, rfl⟩
    · exact fun u r hr => .running hr
  | @starts t call input hrun =>
    refine .inl ⟨rests_of_running rfl rfl rfl rfl ?_ ?_ (fun d hd => hd) fun d hd => .completed hd,
      fun d hd => .inl hd⟩
    · intro u r hr
      obtain ⟨-, heq⟩ | ⟨-, hold⟩ := running_put hr
      · cases heq
        exact .inr rfl
      · exact .inl ⟨r, hold, rfl, rfl⟩
    · intro u r hr
      have hu : u ≠ t := by
        rintro rfl
        cases hrun.symm.trans hr
      exact .running ((running_put_of_ne s hu _).trans hr)
  | @returns t call input r result hrun hret =>
    refine .inl ⟨rests_of_running rfl rfl rfl rfl ?_ ?_ ?_ ?_, ?_⟩
    · intro u r₁ hr
      obtain ⟨-, heq⟩ | ⟨-, hold⟩ := running_put hr
      · cases heq
      · exact .inl ⟨r₁, hold, rfl, rfl⟩
    · intro u r₁ hr
      by_cases hu : u = t
      · subst hu
        cases hrun.symm.trans hr
        exact Has.completed (d := ⟨u, r.call, result, r.events, r.interrupted⟩) List.mem_cons_self
      · exact .running ((running_put_of_ne s hu _).trans hr)
    · exact fun d hd => List.mem_cons_of_mem _ hd
    · intro d hd
      rcases List.mem_cons.mp hd with rfl | hd
      · exact .running hrun
      · exact .completed hd
    · intro d hd
      rcases List.mem_cons.mp hd with rfl | hd
      · exact .inr ⟨t, call, input, r, rfl, hrun, hret, rfl, rfl⟩
      · exact .inl hd

section Logged

variable {s s' : State T} {t : T} {c : Call} {events : Events T} {input : Input} {o : Op T}
  {K : Call → Prop} {e : Event (Op T) (Op.Answer T)}

omit [DecidableEq T] in
theorem Rests.logged (h : s.Rests s') : s'.Logged K e ↔ s.Logged K e := by
  constructor
  · rintro ⟨c, events, hhas, hc, hmem⟩
    rcases h.of_has c events hhas with hold | rfl
    · exact ⟨c, events, hold, hc, hmem⟩
    · cases hmem
  · rintro ⟨c, events, hhas, hc, hmem⟩
    exact ⟨c, events, h.has c events hhas, hc, hmem⟩

theorem Performs.logged (h : s.Performs s' t c events input o) (hhas : s.Has c events) :
    s'.Logged K e ↔ s.Logged K e ∨ K c ∧ e = ⟨o, (s.memory.perform t input o).2⟩ := by
  constructor
  · rintro ⟨c', events', hhas', hc, hmem⟩
    rcases h.of_has c' events' hhas' with hold | ⟨rfl, rfl⟩
    · exact .inl ⟨c', events', hold, hc, hmem⟩
    · rcases List.mem_cons.mp hmem with heq | hmem
      · exact .inr ⟨hc, heq⟩
      · exact .inl ⟨c', events, hhas, hc, hmem⟩
  · rintro (⟨c', events', hhas', hc, hmem⟩ | ⟨hc, rfl⟩)
    · rcases h.has c' events' hhas' with hnew | ⟨rfl, rfl, hnew⟩
      · exact ⟨c', events', hnew, hc, hmem⟩
      · exact ⟨c', _, hnew, hc, List.mem_cons_of_mem _ hmem⟩
    · exact ⟨c, _, h.self, hc, List.mem_cons_self⟩

end Logged

/-! ## The queue -/

/-- The node has become the head, or it was the first one. -/
def Headed (s : State T) (node : Ref) : Prop :=
  s.Logged (fun _ => True) ⟨.set .head (some node), ()⟩ ∨
    s.Logged (fun _ => True) ⟨.compareAndSet .head none (some node) .other, true⟩

def queue (s : State T) : LazyQueue Ref where
  order := s.memory.appended
  headed := s.Headed
  gone node := 0 < s.memory.waitStatus node
  tail := s.memory.field .tail
  prev node := s.memory.field (.prev node)

end State

end BigPlan.QueuedSynchronizer
