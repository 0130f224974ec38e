import BigPlan.Lib.Runs
import BigPlan.Lock.QueuedSynchronizer

/-!
# Threads that use a synchronizer

Threads call the methods of a synchronizer and of its condition, in steps of one operation each.
Each call keeps the events of its operations, the last one first. A thread may be interrupted at
any time, and a parked thread may go on at any time.
-/
namespace BigPlan.QueuedSynchronizer

open Lib Lib.Java Lib.Runs Program

variable {T : Type}

/-- The methods that threads call. -/
inductive Call where
  | acquire (arg : ℤ)
  | acquireInterruptibly (arg : ℤ)
  | tryAcquireNanos (arg : ℤ) (nanosTimeout : JLong)
  | release (arg : ℤ)
  | acquireShared (arg : ℤ)
  | acquireSharedInterruptibly (arg : ℤ)
  | tryAcquireSharedNanos (arg : ℤ) (nanosTimeout : JLong)
  | releaseShared (arg : ℤ)
  | await
  | awaitUninterruptibly
  | awaitNanos (nanosTimeout : JLong)
  | awaitFor (nanosTimeout : JLong)
  | awaitUntil (abstime : JLong)
  | signal
  | signalAll
  deriving DecidableEq

inductive Value where
  | void
  | boolean (b : Bool)
  | long (n : JLong)
  deriving DecidableEq

/-- The code that a call runs. -/
def Call.code (t : T) : Call → Interruptible T Value
  | acquire arg => lift do
    QueuedSynchronizer.acquire t arg
    return .void
  | acquireInterruptibly arg => do
    QueuedSynchronizer.acquireInterruptibly t arg
    return .void
  | tryAcquireNanos arg nanosTimeout => do
    let b ← QueuedSynchronizer.tryAcquireNanos t arg nanosTimeout
    return .boolean b
  | release arg => lift do
    let b ← QueuedSynchronizer.release arg
    return .boolean b
  | acquireShared arg => lift do
    QueuedSynchronizer.acquireShared t arg
    return .void
  | acquireSharedInterruptibly arg => do
    QueuedSynchronizer.acquireSharedInterruptibly t arg
    return .void
  | tryAcquireSharedNanos arg nanosTimeout => do
    let b ← QueuedSynchronizer.tryAcquireSharedNanos t arg nanosTimeout
    return .boolean b
  | releaseShared arg => lift do
    let b ← QueuedSynchronizer.releaseShared arg
    return .boolean b
  | await => do
    QueuedSynchronizer.await t
    return .void
  | awaitUninterruptibly => lift do
    QueuedSynchronizer.awaitUninterruptibly t
    return .void
  | awaitNanos nanosTimeout => do
    let n ← QueuedSynchronizer.awaitNanos t nanosTimeout
    return .long n
  | awaitFor nanosTimeout => do
    let b ← QueuedSynchronizer.awaitFor t nanosTimeout
    return .boolean b
  | awaitUntil abstime => do
    let b ← QueuedSynchronizer.awaitUntil t abstime
    return .boolean b
  | signal => lift do
    QueuedSynchronizer.signal
    return .void
  | signalAll => lift do
    QueuedSynchronizer.signalAll
    return .void

/-- The fields, the next address, the interrupt flags of the threads, and on record the nodes that
were appended to the queue, the last one first. -/
structure Memory (T : Type) where
  field : Field → Option Ref
  waitStatus : Ref → ℤ
  thread : Ref → Option T
  fresh : Ref
  flag : T → Bool
  appended : List Ref

/-- What is open in a step: the answers of the subclass, whether it throws, and the time. -/
structure Input where
  number : ℤ
  boolean : Bool
  throws : Bool
  time : JLong

variable [DecidableEq T]

namespace Memory

/-- A new object has the default values, but for those that its constructor writes. -/
def start : Memory T where
  field _ := none
  waitStatus _ := 0
  thread _ := none
  fresh := Node.SHARED + 1
  flag _ := false
  appended := []

def set (m : Memory T) (field : Field) (v : Option Ref) : Memory T :=
  { m with field := Function.update m.field field v }

def setWaitStatus (m : Memory T) (node : Ref) (ws : ℤ) : Memory T :=
  { m with waitStatus := Function.update m.waitStatus node ws }

def setThread (m : Memory T) (node : Ref) (thread : Option T) : Memory T :=
  { m with thread := Function.update m.thread node thread }

def newNode (m : Memory T) (thread : Option T) (ws : ℤ) (nextWaiter : Option Ref) : Memory T :=
  { ((m.setThread m.fresh thread).setWaitStatus m.fresh ws).set (.nextWaiter m.fresh) nextWaiter with
    fresh := m.fresh + 1 }

def setFlag (m : Memory T) (t : T) (b : Bool) : Memory T :=
  { m with flag := Function.update m.flag t b }

@[simp] theorem flag_setFlag_self (m : Memory T) (t : T) (b : Bool) : (m.setFlag t b).flag t = b :=
  Function.update_self ..

theorem flag_setFlag_of_ne (m : Memory T) {t u : T} (h : u ≠ t) (b : Bool) :
    (m.setFlag t b).flag u = m.flag u := Function.update_of_ne h ..

section Writes

omit [DecidableEq T]

variable (m : Memory T)

@[simp] theorem field_set (field g : Field) (v : Option Ref) :
    (m.set field v).field g = if g = field then v else m.field g := Function.update_apply ..

@[simp] theorem waitStatus_setWaitStatus (node n : Ref) (ws : ℤ) :
    (m.setWaitStatus node ws).waitStatus n = if n = node then ws else m.waitStatus n :=
  Function.update_apply ..

@[simp] theorem thread_setThread (node n : Ref) (thread : Option T) :
    (m.setThread node thread).thread n = if n = node then thread else m.thread n :=
  Function.update_apply ..

@[simp] theorem field_newNode (thread : Option T) (ws : ℤ) (mode : Option Ref) (g : Field) :
    (m.newNode thread ws mode).field g = if g = .nextWaiter m.fresh then mode else m.field g :=
  Function.update_apply ..

@[simp] theorem waitStatus_newNode (thread : Option T) (ws : ℤ) (mode : Option Ref) (n : Ref) :
    (m.newNode thread ws mode).waitStatus n = if n = m.fresh then ws else m.waitStatus n :=
  Function.update_apply ..

@[simp] theorem thread_newNode (thread : Option T) (ws : ℤ) (mode : Option Ref) (n : Ref) :
    (m.newNode thread ws mode).thread n = if n = m.fresh then thread else m.thread n :=
  Function.update_apply ..

end Writes

/-- The node that a compare-and-set appends. -/
def appends : Option Ref → Purpose → List Ref
  | some node, .append => [node]
  | _, _ => []

/-- An operation of the thread. A park may end at any time. -/
def perform (m : Memory T) (t : T) (input : Input) : (o : Op T) → Memory T × o.Answer T
  | .get field => (m, m.field field)
  | .set field v => (m.set field v, ())
  | .compareAndSet field expect update purpose =>
    if m.field field = expect then
      ({ m.set field update with appended := appends update purpose ++ m.appended }, true)
    else (m, false)
  | .getWaitStatus node => (m, m.waitStatus node)
  | .setWaitStatus node ws => (m.setWaitStatus node ws, ())
  | .compareAndSetWaitStatus node expect update _ =>
    if m.waitStatus node = expect then (m.setWaitStatus node update, true) else (m, false)
  | .getThread node => (m, m.thread node)
  | .setThread node thread => (m.setThread node thread, ())
  | .newNode thread ws nextWaiter => (m.newNode thread ws nextWaiter, m.fresh)
  | .getState => (m, input.number)
  | .tryAcquire _ | .tryRelease _ | .tryReleaseShared _ | .isHeldExclusively =>
    (m, if input.throws then none else some input.boolean)
  | .tryAcquireShared _ => (m, if input.throws then none else some input.number)
  | .interrupted => (m.setFlag t false, m.flag t)
  | .selfInterrupt => (m.setFlag t true, ())
  | .nanoTime | .currentTimeMillis => (m, input.time)
  | .park | .unpark _ | .yield => (m, ())

end Memory

/-- A call under way: the rest of its code, its events, and whether its thread has been interrupted
since, or was so when it made the call. -/
structure Running (T : Type) where
  call : Call
  code : Interruptible T Value
  events : Events T
  interrupted : Bool

structure Completed (T : Type) where
  thread : T
  call : Call
  result : Except Thrown Value
  events : Events T
  interrupted : Bool

structure State (T : Type) where
  memory : Memory T
  running : T → Option (Running T)
  completed : List (Completed T)

/-- A thread takes its next step, and makes the call if it is in none; or it is interrupted. -/
inductive Turn (T : Type) where
  | step (t : T) (call : Call) (input : Input)
  | interrupt (t : T)

namespace State

def start : State T where
  memory := .start
  running _ := none
  completed := []

def put (s : State T) (t : T) (r : Option (Running T)) : State T :=
  { s with running := Function.update s.running t r }

/-- The next step of a call. -/
def advance (s : State T) (t : T) (input : Input) (r : Running T) : State T :=
  match r.code with
  | .ret result =>
    { s.put t none with completed := ⟨t, r.call, result, r.events, r.interrupted⟩ :: s.completed }
  | .perform o next =>
    let (memory, answer) := s.memory.perform t input o
    { s.put t (some { r with code := next answer, events := ⟨o, answer⟩ :: r.events }) with
      memory := memory }
  | .loop body a next => s.put t (some { r with code := unroll body a next })

def step (s : State T) : Turn T → State T
  | .step t call input =>
    match s.running t with
    | none => s.put t (some ⟨call, call.code t, [], s.memory.flag t⟩)
    | some r => s.advance t input r
  | .interrupt t =>
    let s := { s with memory := s.memory.setFlag t true }
    match s.running t with
    | none => s
    | some r => s.put t (some { r with interrupted := true })

/-- What a turn can do. -/
inductive Moves (s : State T) : Turn T → State T → Prop where
  | starts {t : T} {call : Call} {input : Input} (h : s.running t = none) :
    Moves s (.step t call input) (s.put t (some ⟨call, call.code t, [], s.memory.flag t⟩))
  | returns {t : T} {call : Call} {input : Input} {r : Running T} {result : Except Thrown Value}
    (h : s.running t = some r) (hcode : r.code = .ret result) :
    Moves s (.step t call input)
      { s.put t none with
        completed := ⟨t, r.call, result, r.events, r.interrupted⟩ :: s.completed }
  | performs {t : T} {call : Call} {input : Input} {r : Running T} {o : Op T}
    {next : o.Answer T → Interruptible T Value} (h : s.running t = some r)
    (hcode : r.code = .perform o next) :
    Moves s (.step t call input)
      { s.put t (some { r with
          code := next (s.memory.perform t input o).2
          events := ⟨o, (s.memory.perform t input o).2⟩ :: r.events }) with
        memory := (s.memory.perform t input o).1 }
  | unrolls {t : T} {call : Call} {input : Input} {r : Running T} {σ β : Type}
    {body : σ → Code T (σ ⊕ β)} {a : σ} {next : β → Interruptible T Value}
    (h : s.running t = some r) (hcode : r.code = .loop body a next) :
    Moves s (.step t call input) (s.put t (some { r with code := unroll body a next }))
  | interruptsIdle {t : T} (h : s.running t = none) :
    Moves s (.interrupt t) { s with memory := s.memory.setFlag t true }
  | interrupts {t : T} {r : Running T} (h : s.running t = some r) :
    Moves s (.interrupt t)
      { s.put t (some { r with interrupted := true }) with memory := s.memory.setFlag t true }

theorem moves_step (s : State T) (turn : Turn T) : s.Moves turn (s.step turn) := by
  cases turn with
  | step t call input =>
    cases h : s.running t with
    | none =>
      simp only [step, h]
      exact .starts h
    | some r =>
      obtain ⟨c, code, events, interrupted⟩ := r
      simp only [step, h]
      cases code with
      | ret result => exact .returns h rfl
      | perform o next => exact .performs h rfl
      | loop body a next => exact .unrolls h rfl
  | interrupt t =>
    cases h : s.running t with
    | none =>
      simp only [step, h]
      exact .interruptsIdle h
    | some r =>
      simp only [step, h]
      exact .interrupts h

theorem running_put_self (s : State T) (t : T) (r : Option (Running T)) :
    (s.put t r).running t = r := Function.update_self ..

theorem running_put_of_ne (s : State T) {t u : T} (h : u ≠ t) (r : Option (Running T)) :
    (s.put t r).running u = s.running u := Function.update_of_ne h ..

/-- Another thread's call is what it was, and the thread's own is the new one. -/
theorem running_put {s : State T} {t u : T} {r : Option (Running T)} {r' : Running T}
    (h : (s.put t r).running u = some r') : u = t ∧ r = some r' ∨ u ≠ t ∧ s.running u = some r' := by
  by_cases hu : u = t
  · subst hu
    rw [running_put_self] at h
    exact .inl ⟨rfl, h⟩
  · rw [running_put_of_ne s hu] at h
    exact .inr ⟨hu, h⟩

/-! ## What the code of the calls ensures -/

/-- The calls under way perform only safe operations, and the completed ones have ended well. -/
structure Keeps (Safe : Call → Op T → Events T → Prop)
    (Good : Call → Except Thrown Value → Events T → Prop) (s : State T) : Prop where
  running : ∀ t r, s.running t = some r → Ensures (Safe r.call) r.code (Good r.call) r.events
  completed : ∀ d ∈ s.completed, Good d.call d.result d.events

variable {Safe : Call → Op T → Events T → Prop}
  {Good : Call → Except Thrown Value → Events T → Prop} {s : State T}

omit [DecidableEq T] in
theorem keeps_start : (start : State T).Keeps Safe Good where
  running := nofun
  completed := nofun

theorem Keeps.step (hcode : ∀ t c, Ensures (Safe c) (c.code t) (Good c) []) (h : s.Keeps Safe Good)
    (turn : Turn T) : (s.step turn).Keeps Safe Good := by
  have hmoves := s.moves_step turn
  generalize s.step turn = s' at hmoves
  cases hmoves with
  | starts hrun =>
    refine ⟨fun u r' hr' => ?_, h.completed⟩
    obtain ⟨-, heq⟩ | ⟨-, hold⟩ := running_put hr'
    · cases heq
      exact hcode _ _
    · exact h.running u r' hold
  | @returns t _ _ r result hrun hret =>
    refine ⟨fun u r' hr' => ?_, fun d hd => ?_⟩
    · obtain ⟨-, heq⟩ | ⟨-, hold⟩ := running_put hr'
      · cases heq
      · exact h.running u r' hold
    · rcases List.mem_cons.mp hd with rfl | hd
      · have hgood := h.running t r hrun
        rwa [hret] at hgood
      · exact h.completed d hd
  | @performs t _ input r o next hrun hop =>
    refine ⟨fun u r' hr' => ?_, h.completed⟩
    obtain ⟨-, heq⟩ | ⟨-, hold⟩ := running_put hr'
    · cases heq
      have hgood := h.running t r hrun
      rw [hop] at hgood
      exact hgood.2 _
    · exact h.running u r' hold
  | @unrolls t _ _ r _ _ body a next hrun hloop =>
    refine ⟨fun u r' hr' => ?_, h.completed⟩
    obtain ⟨-, heq⟩ | ⟨-, hold⟩ := running_put hr'
    · cases heq
      have hgood := h.running t r hrun
      rw [hloop] at hgood
      exact ensures_unroll hgood
    · exact h.running u r' hold
  | interruptsIdle hrun => exact ⟨h.running, h.completed⟩
  | @interrupts t r hrun =>
    refine ⟨fun u r' hr' => ?_, h.completed⟩
    obtain ⟨-, heq⟩ | ⟨-, hold⟩ := running_put hr'
    · cases heq
      exact h.running t r hrun
    · exact h.running u r' hold

omit [DecidableEq T] in
/-- The next operation of a call is safe. -/
theorem Keeps.safe (h : s.Keeps Safe Good) {t : T} {r : Running T} (hrun : s.running t = some r)
    {o : Op T} {next : o.Answer T → Interruptible T Value} (hcode : r.code = .perform o next) :
    Safe r.call o r.events := by
  have hgood := h.running t r hrun
  rw [hcode] at hgood
  exact hgood.1

/-- The events of a call, under way or completed. -/
inductive Has (s : State T) : Call → Events T → Prop where
  | running {t : T} {r : Running T} : s.running t = some r → Has s r.call r.events
  | completed {d : Completed T} : d ∈ s.completed → Has s d.call d.events

omit [DecidableEq T] in
theorem not_has_start {c : Call} {events : Events T} : ¬ (start : State T).Has c events := by
  intro h
  cases h with
  | running h => cases h
  | completed h => cases h

/-- The events of a call were there before the turn, or they are the first, or the turn has added
one. -/
theorem Has.of_step {turn : Turn T} {c : Call} {events : Events T}
    (h : (s.step turn).Has c events) :
    s.Has c events ∨ events = [] ∨
      ∃ t call input r o next, turn = .step t call input ∧ s.running t = some r ∧
        r.code = .perform o next ∧ c = r.call ∧
        events = ⟨o, (s.memory.perform t input o).2⟩ :: r.events := by
  have hmoves := s.moves_step turn
  generalize s.step turn = s' at hmoves h
  cases h with
  | completed hd =>
    cases hmoves with
    | returns hrun hret =>
      rcases List.mem_cons.mp hd with rfl | hd
      · exact .inl (.running hrun)
      · exact .inl (.completed hd)
    | starts | performs | unrolls | interruptsIdle | interrupts => exact .inl (.completed hd)
  | running hr' =>
    cases hmoves with
    | starts hrun =>
      obtain ⟨-, heq⟩ | ⟨-, hold⟩ := running_put hr'
      · cases heq
        exact .inr (.inl rfl)
      · exact .inl (.running hold)
    | returns hrun hret =>
      obtain ⟨-, heq⟩ | ⟨-, hold⟩ := running_put hr'
      · cases heq
      · exact .inl (.running hold)
    | performs hrun hop =>
      obtain ⟨-, heq⟩ | ⟨-, hold⟩ := running_put hr'
      · cases heq
        exact .inr (.inr ⟨_, _, _, _, _, _, rfl, hrun, hop, rfl, rfl⟩)
      · exact .inl (.running hold)
    | unrolls hrun hloop =>
      obtain ⟨-, heq⟩ | ⟨-, hold⟩ := running_put hr'
      · cases heq
        have hhas := Has.running hrun
        exact .inl hhas
      · exact .inl (.running hold)
    | interruptsIdle hrun => exact .inl (.running hr')
    | interrupts hrun =>
      obtain ⟨-, heq⟩ | ⟨-, hold⟩ := running_put hr'
      · cases heq
        have hhas := Has.running hrun
        exact .inl hhas
      · exact .inl (.running hold)

end State

end BigPlan.QueuedSynchronizer
