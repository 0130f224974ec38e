import BigPlan.Lib.Chain
import BigPlan.Lock.Threads

/-!
# A lock

A subclass in exclusive mode: `tryAcquire` sets the state from 0 to 1, if it is 0, and `tryRelease`
sets it to 0. Threads acquire and release in turn, in steps of one operation each, and are not
interrupted. A park takes the permit of its thread, and waits until there is one.
-/
namespace BigPlan.QueuedSynchronizer.Exclusive

open Lib Lib.Chain Lib.Runs Program

variable {T : Type}

/-- What the threads share. On record are the threads that have appended a node to the queue, and
those that have become its head, with their nodes, the last one first. -/
structure Shared (T : Type) where
  memory : Memory T
  state : ℤ
  permit : T → Bool
  queued : List (T × Ref)
  promoted : List (T × Ref)

/-- A thread holds the lock between its calls of `acquire` and of `release`. -/
inductive Phase (T : Type) where
  | outside
  | acquiring (code : Method T Unit)
  | holding
  | releasing (code : Method T Bool)

structure State (T : Type) where
  shared : Shared T
  phase : T → Phase T

/-- A thread takes its next step, or makes its next call with this argument. -/
structure Turn (T : Type) where
  thread : T
  arg : ℤ
  input : Input

variable [DecidableEq T]

namespace Shared

def start : Shared T where
  memory := .start
  state := 0
  permit _ := false
  queued := []
  promoted := []

def setPermit (x : Shared T) (t : T) (b : Bool) : Shared T :=
  { x with permit := Function.update x.permit t b }

omit [DecidableEq T] in
def record (x : Shared T) (t : T) : (o : Op T) → o.Answer T → Shared T
  | .compareAndSet _ _ (some node) .append, true => { x with queued := (t, node) :: x.queued }
  | .set .head (some node), _ => { x with promoted := (t, node) :: x.promoted }
  | _, _ => x

/-- An operation of the thread, if it is not one that has to wait. -/
def perform (x : Shared T) (t : T) (input : Input) : (o : Op T) → Option (Shared T × o.Answer T)
  | .tryAcquire _ =>
    if x.state = 0 then some ({ x with state := 1 }, some true) else some (x, some false)
  | .tryRelease _ => some ({ x with state := 0 }, some true)
  | .getState => some (x, x.state)
  | .park => if x.permit t then some (x.setPermit t false, ()) else none
  | .unpark none => some (x, ())
  | .unpark (some u) => some (x.setPermit u true, ())
  | o =>
    let (memory, answer) := x.memory.perform t input o
    some ({ x with memory }.record t o answer, answer)

end Shared

namespace State

def start : State T where
  shared := .start
  phase _ := .outside

def put (s : State T) (t : T) (phase : Phase T) : State T :=
  { s with phase := Function.update s.phase t phase }

/-- The next step of a call, with the phases during and after it. -/
def advance {α : Type} (s : State T) (t : T) (input : Input) (during : Method T α → Phase T)
    (after : Except Unchecked α → Phase T) : Method T α → State T
  | .ret result => s.put t (after result)
  | .perform o next =>
    match s.shared.perform t input o with
    | none => s
    | some (shared, answer) => { s.put t (during (next answer)) with shared }
  | .loop body a next => s.put t (during (unroll body a next))

omit [DecidableEq T] in
def acquired : Except Unchecked Unit → Phase T
  | .ok _ => .holding
  | .error _ => .outside

def step (s : State T) (turn : Turn T) : State T :=
  match s.phase turn.thread with
  | .outside => s.put turn.thread (.acquiring (acquire turn.thread turn.arg))
  | .acquiring code => s.advance turn.thread turn.input .acquiring acquired code
  | .holding => s.put turn.thread (.releasing (release turn.arg))
  | .releasing code => s.advance turn.thread turn.input .releasing (fun _ => .outside) code

/-! ## What the lock is for -/

variable (s : State T) (t : T)

/-- The thread has returned from `acquire`, and has not called `tryRelease` since. -/
def Holds : Prop :=
  s.phase t = .holding ∨ ∃ arg, s.phase t = .releasing (release arg)

/-- The thread has appended a node, which is not the head yet. -/
def Queued : Prop := ∃ node, (t, node) ∈ s.shared.queued ∧ (t, node) ∉ s.shared.promoted

/-- The next operation of the thread is a park. -/
def Parked : Prop := ∃ next, s.phase t = .acquiring (.perform .park next)

def Releases : Prop := ∃ code, s.phase t = .releasing code

structure Sound : Prop where
  /-- At most one thread has the lock. -/
  exclusive : ∀ t u, s.Holds t → s.Holds u → t = u
  /-- From the tail, `prev` leads over different nodes, and over the head. -/
  chained : s.shared.memory.field .tail ≠ none → ∃ nodes,
    Leads (fun n => s.shared.memory.field (.prev n)) (s.shared.memory.field .tail) nodes none ∧
      nodes.Nodup ∧ ∃ h ∈ nodes, s.shared.memory.field .head = some h
  /-- The threads become head in the order in which they have appended their nodes. -/
  ordered : s.shared.promoted <:+ s.shared.queued
  /-- No wake-up is lost. -/
  awake : s.shared.state = 0 → (∃ t, s.Queued t) →
    (∃ t, s.Queued t ∧ (¬ s.Parked t ∨ s.shared.permit t = true)) ∨ ∃ r, s.Releases r

end State

end BigPlan.QueuedSynchronizer.Exclusive
