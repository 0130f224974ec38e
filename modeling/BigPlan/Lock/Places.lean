import BigPlan.Lock.Exclusive

/-!
# Places in the code

Where a thread can be in `acquire` and `release`, as long as nothing is cancelled or interrupted,
with the code that is left to run there.
-/
namespace BigPlan.QueuedSynchronizer.Exclusive

open Lib Program Node

variable {T : Type}

/-- In `addWaiter` and `enq`, before the node is appended. -/
inductive Adding where
  | readTail
  | loop
  | enqTail
  | newHead
  | casHead (h : Ref)
  | getHead
  | setTail (h : Option Ref)
  | setPrev (pred : Ref)
  | casTail (pred : Ref)

/-- With a node in the queue, before the lock is acquired. -/
inductive Waiting where
  | setNext (pred : Ref)
  | loop
  | getPrev
  | getHead (p : Ref)
  | tryAcquire (p : Ref)
  | getStatus (p : Ref)
  | casStatus (p : Ref) (ws : ℤ)
  | park (p : Ref)
  | interrupted

/-- In `acquireQueued`, after the lock is acquired. -/
inductive Promoting where
  | setHead
  | setThread
  | setPrev
  | setNext

/-- In `unparkSuccessor`. -/
inductive Waking where
  | getStatus
  | casStatus (ws : ℤ)
  | getNext
  | getNextStatus (s : Ref)
  | getTail
  | loop (t s : Option Ref)
  | getCursorStatus (t : Ref) (s : Option Ref)
  | getCursorPrev (t : Ref) (ws : ℤ) (s : Option Ref)
  | getThread (s : Ref)

variable (T) in
inductive Place where
  | outside
  | tryAcquire
  | newNode
  | adding (node : Ref) (adding : Adding)
  | waiting (node : Ref) (waiting : Waiting)
  | promoting (node p : Ref) (promoting : Promoting)
  | acquired
  | holding
  | tryRelease
  | getHead
  | getHeadStatus (h : Ref)
  | waking (h : Ref) (waking : Waking)
  | unpark (thread : Option T)
  | released

/-! ## The rest of acquire -/

/-- From `compareAndSetTail` on. -/
def appending (node pred : Ref) : Method T Ref := do
  if ← compareAndSetTail (some pred) (some node) .append then
    set (.next pred) (some node)
    return node
  else
    let _ ← enq node
    return node

def enqueue (node : Ref) : Method T Ref := do
  let _ ← enq node
  return node

def Adding.code (node : Ref) : Adding → Method T Ref
  | readTail => do
    let pred ← get .tail
    match pred with
    | some pred =>
      set (.prev node) (some pred)
      appending node pred
    | none => enqueue node
  | loop => enqueue node
  | enqTail => do
    let t ← get .tail
    match t with
    | none =>
      let h ← QueuedSynchronizer.newNode none 0 none
      if ← compareAndSetHead h then
        let h ← get .head
        set .tail h
      enqueue node
    | some t =>
      set (.prev node) (some t)
      appending node t
  | newHead => do
    let h ← QueuedSynchronizer.newNode none 0 none
    if ← compareAndSetHead h then
      let h ← get .head
      set .tail h
    enqueue node
  | casHead h => do
    if ← compareAndSetHead h then
      let h ← get .head
      set .tail h
    enqueue node
  | getHead => do
    let h ← get .head
    set .tail h
    enqueue node
  | setTail h => do
    set .tail h
    enqueue node
  | setPrev pred => do
    set (.prev node) (some pred)
    appending node pred
  | casTail pred => appending node pred

/-- The loop in `acquireQueued`, and what follows it. -/
def queueing (node : Ref) (arg : ℤ) (interrupted : Bool) : Method T Unit := do
  let interrupted ← withFinally (forever (fun interrupted => do
    let p ← predecessor node
    if ← attempt p node arg then return .inr (false, interrupted)
    else
      let again ← parksInterrupted p node
      return .inl (again || interrupted)) interrupted) (cancelAcquire node)
  if interrupted then selfInterrupt

/-- What follows a turn of the loop. -/
def turned (node : Ref) (arg : ℤ) : Except Unchecked (Bool ⊕ Bool × Bool) → Method T Unit
  | .ok (.inl interrupted) => queueing node arg interrupted
  | .ok (.inr (failed, interrupted)) => do
    if failed then cancelAcquire node
    if interrupted then selfInterrupt
  | .error e => do
    cancelAcquire node
    throw e

/-- The rest of `acquire`, with what is left of a turn of the loop. -/
def afterTurn (node : Ref) (arg : ℤ) (m : Method T (Bool ⊕ Bool × Bool)) : Method T Unit :=
  Program.bind m (turned node arg)

/-- The rest of a turn after a failed attempt, with what is left of `shouldParkAfterFailedAcquire`. -/
def parking (shouldPark : Method T Bool) : Method T (Bool ⊕ Bool × Bool) := do
  let again ← (do if ← shouldPark then parkAndCheckInterrupt else return false)
  return .inl (again || false)

/-- The rest of a turn with what is left of the attempt. -/
def attempting (p node : Ref) (attempt : Method T Bool) : Method T (Bool ⊕ Bool × Bool) := do
  if ← attempt then return .inr (false, false)
  else parking (shouldParkAfterFailedAcquire p node)

/-- The rest of a turn of the loop. -/
def Waiting.turn (node : Ref) (arg : ℤ) : Waiting → Method T (Bool ⊕ Bool × Bool)
  | getHead p => attempting p node (attempt p node arg)
  | tryAcquire p => attempting p node do
    if ← QueuedSynchronizer.tryAcquire arg then
      setHead node
      set (.next p) none
      return true
    else return false
  | getStatus p => parking (shouldParkAfterFailedAcquire p node)
  | casStatus p ws => parking do
    let _ ← compareAndSetWaitStatus p ws SIGNAL .other
    return false
  | park _ => parking (pure true)
  | interrupted => do
    let again ← threadInterrupted
    return .inl (again || false)
  | getPrev | loop | setNext _ => do
    let p ← predecessor node
    attempting p node (attempt p node arg)

def Waiting.code (node : Ref) (arg : ℤ) : Waiting → Method T Unit
  | setNext pred => do
    set (.next pred) (some node)
    queueing node arg false
  | loop => queueing node arg false
  | place => afterTurn node arg (place.turn node arg)

def Promoting.code (node p : Ref) : Promoting → Method T Unit
  | setHead => do
    QueuedSynchronizer.setHead node
    set (.next p) none
  | setThread => do
    QueuedSynchronizer.setThread node none
    set (.prev node) none
    set (.next p) none
  | setPrev => do
    set (.prev node) none
    set (.next p) none
  | setNext => set (.next p) none

/-! ## The rest of release -/

/-- From reading the node behind this one on. -/
def wakeNext (node : Ref) : Method T Unit := do
  let s ← get (.next node)
  if ← absentOrCancelled s then
    let s ← closestFromTail node
    unparkThread s
  else unparkThread s

/-- The loop in `unparkSuccessor`, and what follows it. -/
def searching (node : Ref) (t s : Option Ref) : Method T Unit := do
  let s ← forever (fun (t, s) =>
    match t with
    | none => return .inr s
    | some t =>
      if t = node then return .inr s
      else do
        let ws ← getWaitStatus t
        let prev ← get (.prev t)
        return .inl (prev, if ws ≤ 0 then some t else s)) (t, s)
  unparkThread s

def Waking.code (h : Ref) : Waking → Method T Unit
  | getStatus => unparkSuccessor h
  | casStatus ws => do
    let _ ← compareAndSetWaitStatus h ws 0 .other
    wakeNext h
  | getNext => wakeNext h
  | getNextStatus s => do
    let cancelled ← (do
      let ws ← getWaitStatus s
      return decide (0 < ws))
    if cancelled then
      let s ← closestFromTail h
      unparkThread s
    else unparkThread (some s)
  | getTail => do
    let s ← closestFromTail h
    unparkThread s
  | loop t s => searching h t s
  | getCursorStatus t s => do
    let ws ← getWaitStatus t
    let prev ← get (.prev t)
    searching h prev (if ws ≤ 0 then some t else s)
  | getCursorPrev t ws s => do
    let prev ← get (.prev t)
    searching h prev (if ws ≤ 0 then some t else s)
  | getThread s => unparkThread (some s)

/-- The rest of `release`, with what is left of `unparkSuccessor`. -/
def afterWake (m : Method T Unit) : Method T Bool := do
  m
  return true

/-- What follows reading the head. -/
def releasing : Option Ref → Method T Bool
  | none => return true
  | some h => do
    let ws ← getWaitStatus h
    let _ ← (if ws ≠ 0 then unparkSuccessor h else pure ())
    return true

/-- The phase of a thread at the place, in a call with this argument. -/
def Place.phase (t : T) (arg : ℤ) : Place T → Phase T
  | outside => .outside
  | tryAcquire => .acquiring (acquire t arg)
  | newNode => .acquiring do
    let node ← addWaiter t EXCLUSIVE
    queueing node arg false
  | adding node place => .acquiring do
    let node ← place.code node
    queueing node arg false
  | waiting node place => .acquiring (place.code node arg)
  | promoting node p place => .acquiring (place.code node p)
  | acquired => .acquiring (pure ())
  | holding => .holding
  | tryRelease => .releasing (release arg)
  | getHead => .releasing do
    let h ← get .head
    releasing h
  | getHeadStatus h => .releasing (releasing (some h))
  | waking h place => .releasing (afterWake (place.code h))
  | unpark thread => .releasing do
    QueuedSynchronizer.unpark thread
    return true
  | released => .releasing (pure true)

/-! ## Moves -/

variable (x : Shared T)

/-- Moves in `addWaiter` and `enq` that write nothing. -/
inductive Adding.Reads : Adding → Adding → Prop where
  | readsTail {pred : Ref} (h : x.memory.field .tail = some pred) : Reads .readTail (.setPrev pred)
  | readsNoTail (h : x.memory.field .tail = none) : Reads .readTail .loop
  | again : Reads .loop .enqTail
  | enqReadsTail {t : Ref} (h : x.memory.field .tail = some t) : Reads .enqTail (.setPrev t)
  | enqReadsNoTail (h : x.memory.field .tail = none) : Reads .enqTail .newHead
  | headFails {h : Ref} (hhead : x.memory.field .head ≠ none) : Reads (.casHead h) .loop
  | readsHead : Reads .getHead (.setTail (x.memory.field .head))
  | tailFails {pred : Ref} (h : x.memory.field .tail ≠ some pred) : Reads (.casTail pred) .loop

inductive Waiting.Reads (node : Ref) : Waiting → Waiting → Prop where
  | again : Reads node .loop .getPrev
  | readsPrev {p : Ref} (h : x.memory.field (.prev node) = some p) : Reads node .getPrev (.getHead p)
  | atHead {p : Ref} (h : x.memory.field .head = some p) : Reads node (.getHead p) (.tryAcquire p)
  | notAtHead {p : Ref} (h : x.memory.field .head ≠ some p) : Reads node (.getHead p) (.getStatus p)
  | fails {p : Ref} (h : x.state ≠ 0) : Reads node (.tryAcquire p) (.getStatus p)
  | signalled {p : Ref} (h : x.memory.waitStatus p = SIGNAL) : Reads node (.getStatus p) (.park p)
  | unsignalled {p : Ref} (h : x.memory.waitStatus p ≠ SIGNAL) :
    Reads node (.getStatus p) (.casStatus p (x.memory.waitStatus p))
  | statusFails {p : Ref} {ws : ℤ} (h : x.memory.waitStatus p ≠ ws) :
    Reads node (.casStatus p ws) .loop
  | goesOn : Reads node .interrupted .loop

inductive Waking.Reads (h : Ref) : Waking → Waking → Prop where
  | signalled (hws : x.memory.waitStatus h < 0) :
    Reads h .getStatus (.casStatus (x.memory.waitStatus h))
  | unsignalled (hws : ¬ x.memory.waitStatus h < 0) : Reads h .getStatus .getNext
  | statusFails {ws : ℤ} (hws : x.memory.waitStatus h ≠ ws) : Reads h (.casStatus ws) .getNext
  | readsNext {s : Ref} (hnext : x.memory.field (.next h) = some s) :
    Reads h .getNext (.getNextStatus s)
  | readsNoNext (hnext : x.memory.field (.next h) = none) : Reads h .getNext .getTail
  | readsNextStatus {s : Ref} : Reads h (.getNextStatus s) (.getThread s)
  | readsTail : Reads h .getTail (.loop (x.memory.field .tail) none)
  | goesOn {t : Ref} {s : Option Ref} (hne : t ≠ h) : Reads h (.loop (some t) s) (.getCursorStatus t s)
  | finds {t : Option Ref} {s : Ref} (hend : t = none ∨ t = some h) :
    Reads h (.loop t (some s)) (.getThread s)
  | readsCursorStatus {t : Ref} {s : Option Ref} :
    Reads h (.getCursorStatus t s) (.getCursorPrev t (x.memory.waitStatus t) s)
  | readsCursorPrev {t : Ref} {ws : ℤ} {s : Option Ref} : Reads h (.getCursorPrev t ws s)
    (.loop (x.memory.field (.prev t)) (if ws ≤ 0 then some t else s))

inductive Place.Reads : Place T → Place T → Prop where
  | calls : Reads .outside .tryAcquire
  | fails (h : x.state ≠ 0) : Reads .tryAcquire .newNode
  | adding {node : Ref} {a a' : Adding} (h : a.Reads x a') : Reads (.adding node a) (.adding node a')
  | waiting {node : Ref} {w w' : Waiting} (h : w.Reads x node w') :
    Reads (.waiting node w) (.waiting node w')
  | returns : Reads .acquired .holding
  | callsRelease : Reads .holding .tryRelease
  | readsHead {h : Ref} (hhead : x.memory.field .head = some h) : Reads .getHead (.getHeadStatus h)
  | readsNoHead (hhead : x.memory.field .head = none) : Reads .getHead .released
  | signalled {h : Ref} (hws : x.memory.waitStatus h ≠ 0) :
    Reads (.getHeadStatus h) (.waking h .getStatus)
  | unsignalled {h : Ref} (hws : x.memory.waitStatus h = 0) : Reads (.getHeadStatus h) .released
  | waking {h : Ref} {w w' : Waking} (hw : w.Reads x h w') : Reads (.waking h w) (.waking h w')
  | findsNone {h : Ref} {t : Option Ref} (hend : t = none ∨ t = some h) :
    Reads (.waking h (.loop t none)) .released
  | readsThread {h s : Ref} : Reads (.waking h (.getThread s)) (.unpark (x.memory.thread s))
  | unparksNone : Reads (.unpark none) .released
  | returnsRelease : Reads .released .outside

/-- What a thread can do at a place, with the shared state and the place after it. -/
inductive Moves [DecidableEq T] (t : T) (x : Shared T) : Place T → Shared T → Place T → Prop where
  | reads {p p' : Place T} (h : p.Reads x p') : Moves t x p x p'
  | acquires (h : x.state = 0) : Moves t x .tryAcquire { x with state := 1 } .acquired
  | creates : Moves t x .newNode { x with memory := x.memory.newNode (some t) 0 EXCLUSIVE }
    (.adding x.memory.fresh .readTail)
  | createsHead {node : Ref} : Moves t x (.adding node .newHead)
    { x with memory := x.memory.newNode none 0 none } (.adding node (.casHead x.memory.fresh))
  | setsHead {node h : Ref} (hhead : x.memory.field .head = none) :
    Moves t x (.adding node (.casHead h)) { x with memory := x.memory.set .head (some h) }
      (.adding node .getHead)
  | setsTail {node : Ref} {h : Option Ref} : Moves t x (.adding node (.setTail h))
    { x with memory := x.memory.set .tail h } (.adding node .loop)
  | setsPrev {node pred : Ref} : Moves t x (.adding node (.setPrev pred))
    { x with memory := x.memory.set (.prev node) (some pred) } (.adding node (.casTail pred))
  | appends {node pred : Ref} (h : x.memory.field .tail = some pred) :
    Moves t x (.adding node (.casTail pred))
      { x with
        memory := { x.memory.set .tail (some node) with appended := node :: x.memory.appended }
        queued := (t, node) :: x.queued } (.waiting node (.setNext pred))
  | setsNext {node pred : Ref} : Moves t x (.waiting node (.setNext pred))
    { x with memory := x.memory.set (.next pred) (some node) } (.waiting node .loop)
  | wins {node p : Ref} (h : x.state = 0) : Moves t x (.waiting node (.tryAcquire p))
    { x with state := 1 } (.promoting node p .setHead)
  | signals {node p : Ref} : Moves t x (.waiting node (.casStatus p (x.memory.waitStatus p)))
    { x with memory := x.memory.setWaitStatus p SIGNAL } (.waiting node .loop)
  | parks {node p : Ref} (h : x.permit t = true) : Moves t x (.waiting node (.park p))
    (x.setPermit t false) (.waiting node .interrupted)
  | promotes {node p : Ref} : Moves t x (.promoting node p .setHead)
    { x with memory := x.memory.set .head (some node), promoted := (t, node) :: x.promoted }
    (.promoting node p .setThread)
  | clearsThread {node p : Ref} : Moves t x (.promoting node p .setThread)
    { x with memory := x.memory.setThread node none } (.promoting node p .setPrev)
  | clearsPrev {node p : Ref} : Moves t x (.promoting node p .setPrev)
    { x with memory := x.memory.set (.prev node) none } (.promoting node p .setNext)
  | clearsNext {node p : Ref} : Moves t x (.promoting node p .setNext)
    { x with memory := x.memory.set (.next p) none } .acquired
  | releases : Moves t x .tryRelease { x with state := 0 } .getHead
  | resets {h : Ref} : Moves t x (.waking h (.casStatus (x.memory.waitStatus h)))
    { x with memory := x.memory.setWaitStatus h 0 } (.waking h .getNext)
  | unparks {u : T} : Moves t x (.unpark (some u)) (x.setPermit u true) .released

end BigPlan.QueuedSynchronizer.Exclusive
