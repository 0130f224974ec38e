import BigPlan.Lib.Java
import BigPlan.Lib.Program
import Mathlib.Data.Int.Notation
import Mathlib.Logic.Function.Basic

/-!
# The queued synchronizer

The methods of `AbstractGapacheQueuedSynchronizer` as programs whose operations are the single
reads, writes and compare-and-sets of the fields, the calls of the methods that a subclass
overrides, and those of the thread. What the subclass answers is open.
-/
namespace BigPlan.QueuedSynchronizer

open Lib Lib.Java Program

/-- The address of a node. -/
abbrev Ref := ℕ

/-- The fields of the synchronizer, of its condition, and of the nodes, that refer to nodes. -/
inductive Field where
  | head
  | tail
  | firstWaiter
  | lastWaiter
  | prev (node : Ref)
  | next (node : Ref)
  | nextWaiter (node : Ref)
  deriving DecidableEq

variable (T : Type)

/-- What a compare-and-set is for. Only the events show it. -/
inductive Purpose where
  | append
  | cancelWait
  | other
  deriving DecidableEq

inductive Op where
  | get (field : Field)
  | set (field : Field) (v : Option Ref)
  | compareAndSet (field : Field) (expect update : Option Ref) (purpose : Purpose)
  | getWaitStatus (node : Ref)
  | setWaitStatus (node : Ref) (ws : ℤ)
  | compareAndSetWaitStatus (node : Ref) (expect update : ℤ) (purpose : Purpose)
  | getThread (node : Ref)
  | setThread (node : Ref) (thread : Option T)
  | newNode (thread : Option T) (waitStatus : ℤ) (nextWaiter : Option Ref)
  | getState
  | tryAcquire (arg : ℤ)
  | tryRelease (arg : ℤ)
  | tryAcquireShared (arg : ℤ)
  | tryReleaseShared (arg : ℤ)
  | isHeldExclusively
  | park
  | unpark (thread : Option T)
  | yield
  | interrupted
  | selfInterrupt
  | nanoTime
  | currentTimeMillis

/-- A method of the subclass answers `none` if it throws. -/
@[reducible] def Op.Answer : Op T → Type
  | get _ => Option Ref
  | newNode _ _ _ => Ref
  | getWaitStatus _ | getState => ℤ
  | getThread _ => Option T
  | compareAndSet _ _ _ _ | compareAndSetWaitStatus _ _ _ _ | interrupted => Bool
  | tryAcquire _ | tryRelease _ | tryReleaseShared _ | isHeldExclusively => Option Bool
  | tryAcquireShared _ => Option ℤ
  | nanoTime | currentTimeMillis => JLong
  | set _ _ | setWaitStatus _ _ | setThread _ _ | park | unpark _ | yield | selfInterrupt => Unit

/-- What a method throws that does not say so. -/
inductive Unchecked where
  | nullPointer
  | illegalMonitorState
  | subclass
  deriving DecidableEq

inductive Thrown where
  | unchecked (e : Unchecked)
  | interruptedException
  deriving DecidableEq

abbrev Code := Program (Op T) (Op.Answer T)

abbrev Events := List (Event (Op T) (Op.Answer T))

abbrev Method := ExceptT Unchecked (Code T)

/-- A method that throws `InterruptedException`. -/
abbrev Interruptible := ExceptT Thrown (Code T)

variable {T} {α : Type}

/-- A call of a method that does not throw it. -/
def lift (m : Method T α) : Interruptible T α := mapError .unchecked m

def op (o : Op T) : Method T (o.Answer T) := ExceptT.lift (call o)

/-! ## Fields -/

def Node.SHARED : Ref := 0

def Node.EXCLUSIVE : Option Ref := none

def Node.CANCELLED : ℤ := 1

def Node.SIGNAL : ℤ := -1

def Node.CONDITION : ℤ := -2

def Node.PROPAGATE : ℤ := -3

open Node

def get (field : Field) : Method T (Option Ref) := op (.get field)

def set (field : Field) (v : Option Ref) : Method T Unit := op (.set field v)

def getWaitStatus (node : Ref) : Method T ℤ := op (.getWaitStatus node)

def setWaitStatus (node : Ref) (ws : ℤ) : Method T Unit := op (.setWaitStatus node ws)

def getThread (node : Ref) : Method T (Option T) := op (.getThread node)

def setThread (node : Ref) (thread : Option T) : Method T Unit := op (.setThread node thread)

/-- `new Node`. -/
def newNode (thread : Option T) (waitStatus : ℤ) (nextWaiter : Option Ref) : Method T Ref :=
  op (.newNode thread waitStatus nextWaiter)

/-- The target of a field access or a call. -/
def deref : Option Ref → Method T Ref
  | some node => pure node
  | none => throw .nullPointer

def compareAndSetHead (update : Ref) : Method T Bool :=
  op (.compareAndSet .head none (some update) .other)

def compareAndSetTail (expect update : Option Ref) (purpose : Purpose) : Method T Bool :=
  op (.compareAndSet .tail expect update purpose)

def compareAndSetWaitStatus (node : Ref) (expect update : ℤ) (purpose : Purpose) :
    Method T Bool :=
  op (.compareAndSetWaitStatus node expect update purpose)

def compareAndSetNext (node : Ref) (expect update : Option Ref) : Method T Bool :=
  op (.compareAndSet (.next node) expect update .other)

/-- `predecessor()`. -/
def predecessor (node : Ref) : Method T Ref := do
  let p ← get (.prev node)
  deref p

/-- `isShared()`. -/
def isShared (node : Ref) : Method T Bool := do
  let nextWaiter ← get (.nextWaiter node)
  return nextWaiter = some SHARED

/-! ## The thread -/

def park : Method T Unit := op .park

/-- `LockSupport.unpark`. -/
def unpark (thread : Option T) : Method T Unit := op (.unpark thread)

/-- `Thread.yield()`. -/
def yieldThread : Method T Unit := op .yield

/-- `Thread.interrupted()`. -/
def threadInterrupted : Method T Bool := op .interrupted

def selfInterrupt : Method T Unit := op .selfInterrupt

def nanoTime : Method T JLong := op .nanoTime

def currentTimeMillis : Method T JLong := op .currentTimeMillis

def getState : Method T ℤ := op .getState

/-! ## The queue -/

def enq (node : Ref) : Method T Ref :=
  forever (fun _ => do
    let t ← get .tail
    match t with
    | none =>
      let h ← newNode none 0 none
      if ← compareAndSetHead h then
        let h ← get .head
        set .tail h
      return .inl ()
    | some t =>
      set (.prev node) (some t)
      if ← compareAndSetTail (some t) (some node) .append then
        set (.next t) (some node)
        return .inr t
      else
        return .inl ()) ()

def addWaiter (t : T) (mode : Option Ref) : Method T Ref := do
  let node ← newNode (some t) 0 mode
  let pred ← get .tail
  match pred with
  | some pred =>
    set (.prev node) (some pred)
    if ← compareAndSetTail (some pred) (some node) .append then
      set (.next pred) (some node)
      return node
    else
      let _ ← enq node
      return node
  | none =>
    let _ ← enq node
    return node

def setHead (node : Ref) : Method T Unit := do
  set .head (some node)
  setThread node none
  set (.prev node) none

/-- The loop in `unparkSuccessor`: the waiting node that is closest to this one. -/
def closestFromTail (node : Ref) : Method T (Option Ref) := do
  let t ← get .tail
  forever (fun (t, s) =>
    match t with
    | none => return .inr s
    | some t =>
      if t = node then return .inr s
      else do
        let ws ← getWaitStatus t
        let prev ← get (.prev t)
        return .inl (prev, if ws ≤ 0 then some t else s)) (t, none)

/-- `s == null || s.waitStatus > 0`. -/
def absentOrCancelled : Option Ref → Method T Bool
  | none => return true
  | some s => do
    let ws ← getWaitStatus s
    return 0 < ws

/-- `if (s != null) { LockSupport.unpark(s.thread); }`. -/
def unparkThread : Option Ref → Method T Unit
  | none => return ()
  | some s => do
    let thread ← getThread s
    unpark thread

def unparkSuccessor (node : Ref) : Method T Unit := do
  let ws ← getWaitStatus node
  let _ ← (if ws < 0 then compareAndSetWaitStatus node ws 0 .other else pure false)
  let s ← get (.next node)
  if ← absentOrCancelled s then
    let s ← closestFromTail node
    unparkThread s
  else unparkThread s

/-- The outer condition in `doReleaseShared`. The result tells whether the loop continues with the
next turn at once. -/
def releaseHead (h : Option Ref) : Method T Bool :=
  match h with
  | none => return false
  | some h => do
    let tail ← get .tail
    if tail = some h then return false
    else do
      let ws ← getWaitStatus h
      if ws = SIGNAL then
        if ← compareAndSetWaitStatus h SIGNAL 0 .other then
          unparkSuccessor h
          return false
        else return true
      else if ws = 0 then do
        let done ← compareAndSetWaitStatus h 0 PROPAGATE .other
        return !done
      else return false

def doReleaseShared : Method T Unit :=
  forever (fun _ => do
    let h ← get .head
    if ← releaseHead h then return .inl ()
    else
      let head ← get .head
      return if h = head then .inr () else .inl ()) ()

/-- `h == null || h.waitStatus < 0`. -/
def absentOrNegative : Option Ref → Method T Bool
  | none => return true
  | some h => do
    let ws ← getWaitStatus h
    return ws < 0

/-- The condition in `setHeadAndPropagate`, with the head before and after the change. -/
def propagates (h : Option Ref) (propagate : ℤ) : Method T Bool :=
  if 0 < propagate then return true
  else do
    if ← absentOrNegative h then return true
    else
      let h ← get .head
      absentOrNegative h

def setHeadAndPropagate (node : Ref) (propagate : ℤ) : Method T Unit := do
  let h ← get .head
  setHead node
  if ← propagates h propagate then
    let s ← get (.next node)
    match s with
    | none => doReleaseShared
    | some s => if ← isShared s then doReleaseShared

/-- The nodes before this one, up to one that was not cancelled, are taken off. -/
def skipCancelled (node : Ref) (pred : Option Ref) : Method T Ref :=
  forever (fun pred => do
    let pred ← deref pred
    let ws ← getWaitStatus pred
    if 0 < ws then do
      let pred ← get (.prev pred)
      set (.prev node) pred
      return .inl pred
    else return .inr pred) pred

/-- `pred != head && ((ws = pred.waitStatus) == Node.SIGNAL || ...) && pred.thread != null`. -/
def signals (pred : Ref) : Method T Bool := do
  let head ← get .head
  if some pred = head then return false
  else
    let ws ← getWaitStatus pred
    let signal ←
      (if ws = SIGNAL then pure true
      else if ws ≤ 0 then compareAndSetWaitStatus pred ws SIGNAL .other
      else pure false)
    if signal then do
      let thread ← getThread pred
      return thread.isSome
    else return false

/-- The inner condition in `cancelAcquire`, for a node that was not the tail. -/
def bypass (node pred : Ref) (predNext : Option Ref) : Method T Unit := do
  if ← signals pred then
    let next ← get (.next node)
    match next with
    | none => return ()
    | some next => do
      let ws ← getWaitStatus next
      let _ ← (if ws ≤ 0 then compareAndSetNext pred predNext (some next) else pure false)
      return ()
  else unparkSuccessor node

def cancelAcquire (node : Ref) : Method T Unit := do
  setThread node none
  let pred ← get (.prev node)
  let pred ← skipCancelled node pred
  let predNext ← get (.next pred)
  setWaitStatus node CANCELLED
  let tail ← get .tail
  let removed ←
    (if some node = tail then compareAndSetTail (some node) (some pred) .other else pure false)
  if removed then
    let _ ← compareAndSetNext pred predNext none
    return ()
  else
    bypass node pred predNext
    set (.next node) (some node)

def shouldParkAfterFailedAcquire (pred node : Ref) : Method T Bool := do
  let ws ← getWaitStatus pred
  if ws = SIGNAL then return true
  else if 0 < ws then
    let pred ← get (.prev pred)
    set (.prev node) pred
    let pred ← skipCancelled node pred
    set (.next pred) (some node)
    return false
  else
    let _ ← compareAndSetWaitStatus pred ws SIGNAL .other
    return false

def parkAndCheckInterrupt : Method T Bool := do
  park
  threadInterrupted

/-! ## The methods of the subclass -/

/-- The answer of a method of the subclass, or what it throws. -/
def answered {α : Type} : Option α → Method T α
  | some a => pure a
  | none => throw .subclass

def tryAcquire (arg : ℤ) : Method T Bool := do
  let a ← op (.tryAcquire arg)
  answered a

def tryRelease (arg : ℤ) : Method T Bool := do
  let a ← op (.tryRelease arg)
  answered a

def tryAcquireShared (arg : ℤ) : Method T ℤ := do
  let a ← op (.tryAcquireShared arg)
  answered a

def tryReleaseShared (arg : ℤ) : Method T Bool := do
  let a ← op (.tryReleaseShared arg)
  answered a

def isHeldExclusively : Method T Bool := do
  let a ← op .isHeldExclusively
  answered a

/-! ## Acquiring -/

def spinForTimeoutThreshold : JLong := 1000

/-- `p == head && tryAcquire(arg)`, and what follows if so. -/
def attempt (p node : Ref) (arg : ℤ) : Method T Bool := do
  let head ← get .head
  if some p = head then
    if ← tryAcquire arg then
      setHead node
      set (.next p) none
      return true
    else return false
  else return false

/-- `p == head`, and what follows if so. -/
def attemptShared (p node : Ref) (arg : ℤ) : Method T Bool := do
  let head ← get .head
  if some p = head then
    let r ← tryAcquireShared arg
    if 0 ≤ r then
      setHeadAndPropagate node r
      set (.next p) none
      return true
    else return false
  else return false

/-- `shouldParkAfterFailedAcquire(p, node) && parkAndCheckInterrupt()`. -/
def parksInterrupted (p node : Ref) : Method T Bool := do
  if ← shouldParkAfterFailedAcquire p node then parkAndCheckInterrupt else return false

/-- The loop returns, with the flag `failed`, whether the thread was interrupted. -/
def acquireQueued (node : Ref) (arg : ℤ) : Method T Bool :=
  withFinally (forever (fun interrupted => do
    let p ← predecessor node
    if ← attempt p node arg then return .inr (false, interrupted)
    else
      let again ← parksInterrupted p node
      return .inl (again || interrupted)) false) (cancelAcquire node)

def doAcquireInterruptibly (t : T) (arg : ℤ) : Interruptible T Unit := do
  let node ← lift (addWaiter t EXCLUSIVE)
  withFinally (forever (fun _ => do
    let p ← lift (predecessor node)
    if ← lift (attempt p node arg) then return .inr (false, ())
    else
      if ← lift (parksInterrupted p node) then throw .interruptedException
      else return .inl ()) ()) (lift (cancelAcquire node))

/-- The rest of a turn in the loops of the timed methods. The result is false after a timeout. -/
def parkNanosBefore (deadline : JLong) (p node : Ref) : Interruptible T Bool := do
  let now ← lift nanoTime
  if (deadline - now).sle 0 then return false
  else
    let shouldPark ← lift (shouldParkAfterFailedAcquire p node)
    lift (if shouldPark && spinForTimeoutThreshold.slt (deadline - now) then park else pure ())
    if ← lift threadInterrupted then throw .interruptedException
    else return true

/-- The two timed methods, which differ in the mode of the node and in the attempt. -/
def doAcquireNanosBy (mode : Option Ref) (attempt : Ref → Ref → Method T Bool) (t : T)
    (nanosTimeout : JLong) : Interruptible T Bool := do
  if nanosTimeout.sle 0 then return false
  else
    let now ← lift nanoTime
    let node ← lift (addWaiter t mode)
    withFinally (forever (fun _ => do
      let p ← lift (predecessor node)
      if ← lift (attempt p node) then return .inr (false, true)
      else
        if ← parkNanosBefore (now + nanosTimeout) p node then return .inl ()
        else return .inr (true, false)) ()) (lift (cancelAcquire node))

def doAcquireNanos (t : T) (arg : ℤ) (nanosTimeout : JLong) : Interruptible T Bool :=
  doAcquireNanosBy EXCLUSIVE (fun p node => attempt p node arg) t nanosTimeout

def doAcquireShared (t : T) (arg : ℤ) : Method T Unit := do
  let node ← addWaiter t (some SHARED)
  withFinally (forever (fun interrupted => do
    let p ← predecessor node
    if ← attemptShared p node arg then
      let _ ← (if interrupted then selfInterrupt else pure ())
      return .inr (false, ())
    else
      let again ← parksInterrupted p node
      return .inl (again || interrupted)) false) (cancelAcquire node)

/-- Unlike the others, this method makes one attempt, and waits once. -/
def doAcquireSharedInterruptibly (t : T) (arg : ℤ) : Interruptible T Unit := do
  let node ← lift (addWaiter t (some SHARED))
  withFinally (do
    let p ← lift (predecessor node)
    if ← lift (attemptShared p node arg) then return (false, ())
    else
      if ← lift (parksInterrupted p node) then throw .interruptedException
      else return (true, ())) (lift (cancelAcquire node))

def doAcquireSharedNanos (t : T) (arg : ℤ) (nanosTimeout : JLong) : Interruptible T Bool :=
  doAcquireNanosBy (some SHARED) (fun p node => attemptShared p node arg) t nanosTimeout

def acquire (t : T) (arg : ℤ) : Method T Unit := do
  if ← tryAcquire arg then return ()
  else
    let node ← addWaiter t EXCLUSIVE
    if ← acquireQueued node arg then selfInterrupt

def acquireInterruptibly (t : T) (arg : ℤ) : Interruptible T Unit := do
  if ← lift threadInterrupted then throw .interruptedException
  else
    if ← lift (tryAcquire arg) then return ()
    else doAcquireInterruptibly t arg

def tryAcquireNanos (t : T) (arg : ℤ) (nanosTimeout : JLong) : Interruptible T Bool := do
  if ← lift threadInterrupted then throw .interruptedException
  else
    if ← lift (tryAcquire arg) then return true
    else doAcquireNanos t arg nanosTimeout

def release (arg : ℤ) : Method T Bool := do
  if ← tryRelease arg then
    let h ← get .head
    match h with
    | none => return true
    | some h =>
      let ws ← getWaitStatus h
      let _ ← (if ws ≠ 0 then unparkSuccessor h else pure ())
      return true
  else return false

def acquireShared (t : T) (arg : ℤ) : Method T Unit := do
  let r ← tryAcquireShared arg
  if r < 0 then doAcquireShared t arg

def acquireSharedInterruptibly (t : T) (arg : ℤ) : Interruptible T Unit := do
  if ← lift threadInterrupted then throw .interruptedException
  else
    let r ← lift (tryAcquireShared arg)
    if r < 0 then doAcquireSharedInterruptibly t arg

def tryAcquireSharedNanos (t : T) (arg : ℤ) (nanosTimeout : JLong) : Interruptible T Bool := do
  if ← lift threadInterrupted then throw .interruptedException
  else
    let r ← lift (tryAcquireShared arg)
    if 0 ≤ r then return true
    else doAcquireSharedNanos t arg nanosTimeout

def releaseShared (arg : ℤ) : Method T Bool := do
  if ← tryReleaseShared arg then
    doReleaseShared
    return true
  else return false

/-! ## The condition -/

def findNodeFromTail (node : Ref) : Method T Bool := do
  let t ← get .tail
  forever (fun t =>
    match t with
    | none => return .inr false
    | some t =>
      if t = node then return .inr true
      else do
        let prev ← get (.prev t)
        return .inl prev) t

def isOnSyncQueue (node : Ref) : Method T Bool := do
  let ws ← getWaitStatus node
  if ws = CONDITION then return false
  else
    let prev ← get (.prev node)
    if prev = none then return false
    else
      let next ← get (.next node)
      if next ≠ none then return true
      else findNodeFromTail node

/-- The node is appended whatever its `waitStatus` is. -/
def transferForSignal (node : Ref) : Method T Bool := do
  let p ← enq node
  let ws ← getWaitStatus p
  let signal ← (if 0 < ws then pure false else compareAndSetWaitStatus p ws SIGNAL .other)
  let _ ← (if signal then pure () else do
    let thread ← getThread node
    unpark thread)
  return true

def transferAfterCancelledWait (node : Ref) : Method T Bool := do
  if ← compareAndSetWaitStatus node CONDITION 0 .cancelWait then
    let _ ← enq node
    return true
  else
    forever (fun _ => do
      if ← isOnSyncQueue node then return .inr false
      else
        yieldThread
        return .inl ()) ()

def fullyRelease (node : Ref) : Method T ℤ :=
  withFinally (do
    let savedState ← getState
    if ← release savedState then return (false, savedState)
    else throw .illegalMonitorState) (setWaitStatus node CANCELLED)

def unlinkCancelledWaiters : Method T Unit := do
  let t ← get .firstWaiter
  forever (fun (t, trail) =>
    match t with
    | none => return .inr ()
    | some t => do
      let next ← get (.nextWaiter t)
      let ws ← getWaitStatus t
      if ws ≠ CONDITION then
        set (.nextWaiter t) none
        set (trail.elim .firstWaiter .nextWaiter) next
        let _ ← (if next = none then set .lastWaiter trail else pure ())
        return .inl (next, trail)
      else return .inl (next, some t)) (t, none)

/-- `lastWaiter`, without the cancelled waiters if the last one was cancelled. -/
def lastWaiting : Option Ref → Method T (Option Ref)
  | none => return none
  | some last => do
    let ws ← getWaitStatus last
    if ws ≠ CONDITION then
      unlinkCancelledWaiters
      get .lastWaiter
    else return some last

def addConditionWaiter (t : T) : Method T Ref := do
  let last ← get .lastWaiter
  let last ← lastWaiting last
  let node ← newNode (some t) CONDITION none
  set (last.elim .firstWaiter .nextWaiter) (some node)
  set .lastWaiter (some node)
  return node

def doSignal (first : Ref) : Method T Unit :=
  forever (fun first => do
    let next ← get (.nextWaiter first)
    set .firstWaiter next
    let _ ← (if next = none then set .lastWaiter none else pure ())
    set (.nextWaiter first) none
    if ← transferForSignal first then return .inr ()
    else
      let first ← get .firstWaiter
      match first with
      | none => return .inr ()
      | some first => return .inl first) first

def doSignalAll (first : Ref) : Method T Unit := do
  set .firstWaiter none
  set .lastWaiter none
  forever (fun first => do
    let next ← get (.nextWaiter first)
    set (.nextWaiter first) none
    let _ ← transferForSignal first
    match next with
    | none => return .inr ()
    | some next => return .inl next) first

def REINTERRUPT : ℤ := 1

def THROW_IE : ℤ := -1

def checkInterruptWhileWaiting (node : Ref) : Method T ℤ := do
  if ← threadInterrupted then
    if ← transferAfterCancelledWait node then return THROW_IE else return REINTERRUPT
  else return 0

def parkAndCheck (node : Ref) : Method T ℤ := do
  park
  checkInterruptWhileWaiting node

def reportInterruptAfterWait (interruptMode : ℤ) : Interruptible T Unit := do
  if interruptMode = THROW_IE then throw .interruptedException
  else if interruptMode = REINTERRUPT then lift selfInterrupt

/-- The end of every wait that can be interrupted. -/
def reacquire (node : Ref) (savedState interruptMode : ℤ) : Interruptible T Unit := do
  let interrupted ← lift (acquireQueued node savedState)
  let interruptMode :=
    if interrupted && interruptMode != THROW_IE then REINTERRUPT else interruptMode
  let nextWaiter ← lift (get (.nextWaiter node))
  lift (if nextWaiter ≠ none then unlinkCancelledWaiters else pure ())
  if interruptMode ≠ 0 then reportInterruptAfterWait interruptMode

/-- `await()`. -/
def await (t : T) : Interruptible T Unit := do
  if ← lift threadInterrupted then throw .interruptedException
  else
    let node ← lift (addConditionWaiter t)
    let savedState ← lift (fullyRelease node)
    let interruptMode ← lift (forever (fun _ => do
      if ← isOnSyncQueue node then return .inr 0
      else
        let interruptMode ← parkAndCheck node
        if interruptMode ≠ 0 then return .inr interruptMode else return .inl ()) ())
    reacquire node savedState interruptMode

def awaitUninterruptibly (t : T) : Method T Unit := do
  let node ← addConditionWaiter t
  let savedState ← fullyRelease node
  let interrupted ← forever (fun interrupted => do
    if ← isOnSyncQueue node then return .inr interrupted
    else
      park
      let again ← threadInterrupted
      return .inl (again || interrupted)) false
  let again ← acquireQueued node savedState
  if again || interrupted then selfInterrupt

/-- The loop of the waits with a timeout. The result tells whether the wait was cancelled because
of the time, and how it was interrupted. -/
def waitNanos (node : Ref) (deadline nanosTimeout : JLong) : Method T (Bool × ℤ) :=
  forever (fun nanosTimeout => do
    if ← isOnSyncQueue node then return .inr (false, 0)
    else if nanosTimeout.sle 0 then
      let timedout ← transferAfterCancelledWait node
      return .inr (timedout, 0)
    else
      let _ ← (if spinForTimeoutThreshold.sle nanosTimeout then park else pure ())
      let interruptMode ← checkInterruptWhileWaiting node
      if interruptMode ≠ 0 then return .inr (false, interruptMode)
      else
        let now ← nanoTime
        return .inl (deadline - now)) nanosTimeout

def awaitNanos (t : T) (nanosTimeout : JLong) : Interruptible T JLong := do
  if ← lift threadInterrupted then throw .interruptedException
  else
    let node ← lift (addConditionWaiter t)
    let savedState ← lift (fullyRelease node)
    let now ← lift nanoTime
    let deadline := now + nanosTimeout
    let (_, interruptMode) ← lift (waitNanos node deadline nanosTimeout)
    reacquire node savedState interruptMode
    let now ← lift nanoTime
    return deadline - now

/-- `await(time, unit)`, with the time in nanoseconds. -/
def awaitFor (t : T) (nanosTimeout : JLong) : Interruptible T Bool := do
  if ← lift threadInterrupted then throw .interruptedException
  else
    let node ← lift (addConditionWaiter t)
    let savedState ← lift (fullyRelease node)
    let now ← lift nanoTime
    let deadline := now + nanosTimeout
    let (timedout, interruptMode) ← lift (waitNanos node deadline nanosTimeout)
    reacquire node savedState interruptMode
    return !timedout

def awaitUntil (t : T) (abstime : JLong) : Interruptible T Bool := do
  if ← lift threadInterrupted then throw .interruptedException
  else
    let node ← lift (addConditionWaiter t)
    let savedState ← lift (fullyRelease node)
    let (timedout, interruptMode) ← lift (forever (fun _ => do
      if ← isOnSyncQueue node then return .inr (false, 0)
      else
        let now ← currentTimeMillis
        if abstime.slt now then
          let timedout ← transferAfterCancelledWait node
          return .inr (timedout, 0)
        else
          let interruptMode ← parkAndCheck node
          if interruptMode ≠ 0 then return .inr (false, interruptMode) else return .inl ()) ())
    reacquire node savedState interruptMode
    return !timedout

/-- `signal()` and `signalAll()`. -/
def signalBy (signal : Ref → Method T Unit) : Method T Unit := do
  if ← isHeldExclusively then
    let first ← get .firstWaiter
    match first with
    | none => return ()
    | some first => signal first
  else throw .illegalMonitorState

def signal : Method T Unit := signalBy doSignal

def signalAll : Method T Unit := signalBy doSignalAll

end BigPlan.QueuedSynchronizer
