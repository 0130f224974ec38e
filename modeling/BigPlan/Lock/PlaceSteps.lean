import BigPlan.Lock.Places

/-!
# Steps between places

A thread whose code is that of a place makes one of the moves of the place, unless it waits to be
unparked.
-/
namespace BigPlan.QueuedSynchronizer.Exclusive

open Lib Program Node

variable {T : Type}

/-- What has to hold so that nothing is cancelled or interrupted. -/
structure Calm (x : Shared T) : Prop where
  statuses : ∀ n, x.memory.waitStatus n = 0 ∨ x.memory.waitStatus n = SIGNAL
  flags : ∀ t, x.memory.flag t = false

theorem Calm.not_pos {x : Shared T} (h : Calm x) (n : Ref) : ¬ 0 < x.memory.waitStatus n := by
  obtain h | h := h.statuses n
  · rw [h]
    exact Int.lt_irrefl 0
  · rw [h]
    decide

variable [DecidableEq T]

section Operations

variable {x : Shared T} {t : T} {input : Input}

theorem perform_get {field : Field} {v : Option Ref} (h : x.memory.field field = v) :
    x.perform t input (.get field) = some (x, v) := by
  subst h
  rfl

theorem perform_getWaitStatus (node : Ref) :
    x.perform t input (.getWaitStatus node) = some (x, x.memory.waitStatus node) := rfl

theorem perform_compareAndSet {field : Field} {expect : Option Ref} (h : x.memory.field field = expect)
    (update : Option Ref) : x.perform t input (.compareAndSet field expect update .other) =
      some ({ x with memory := x.memory.set field update }, true) := by
  simp only [Shared.perform, Memory.perform, if_pos h]
  cases update with
  | none => rfl
  | some node => rfl

theorem perform_append {node pred : Ref} (h : x.memory.field .tail = some pred) :
    x.perform t input (.compareAndSet .tail (some pred) (some node) .append) =
      some ({ x with
        memory := { x.memory.set .tail (some node) with appended := node :: x.memory.appended }
        queued := (t, node) :: x.queued }, true) := by
  simp only [Shared.perform, Memory.perform, if_pos h]
  rfl

theorem perform_compareAndSet_fails {field : Field} {expect : Option Ref}
    (h : x.memory.field field ≠ expect) (update : Option Ref) (purpose : Purpose) :
    x.perform t input (.compareAndSet field expect update purpose) = some (x, false) := by
  simp only [Shared.perform, Memory.perform, if_neg h]
  cases update <;> cases purpose <;> rfl

theorem perform_compareAndSetWaitStatus {node : Ref} {expect : ℤ}
    (h : x.memory.waitStatus node = expect) (update : ℤ) (purpose : Purpose) :
    x.perform t input (.compareAndSetWaitStatus node expect update purpose) =
      some ({ x with memory := x.memory.setWaitStatus node update }, true) := by
  simp only [Shared.perform, Memory.perform, if_pos h]
  rfl

theorem perform_compareAndSetWaitStatus_fails {node : Ref} {expect : ℤ}
    (h : x.memory.waitStatus node ≠ expect) (update : ℤ) (purpose : Purpose) :
    x.perform t input (.compareAndSetWaitStatus node expect update purpose) = some (x, false) := by
  simp only [Shared.perform, Memory.perform, if_neg h]
  rfl

theorem perform_tryAcquire (h : x.state = 0) (arg : ℤ) :
    x.perform t input (.tryAcquire arg) = some ({ x with state := 1 }, some true) := if_pos h

theorem perform_tryAcquire_fails (h : x.state ≠ 0) (arg : ℤ) :
    x.perform t input (.tryAcquire arg) = some (x, some false) := if_neg h

theorem perform_park (h : x.permit t = true) :
    x.perform t input .park = some (x.setPermit t false, ()) := if_pos h

theorem perform_interrupted (h : x.memory.flag t = false) :
    x.perform t input .interrupted = some (x, false) := by
  have hsame : x.memory.setFlag t false = x.memory := by
    simp only [Memory.setFlag, ← h, Function.update_eq_self]
  simp only [Shared.perform, Memory.perform, hsame, h]
  rfl

end Operations

/-- The state after a step of the thread at the place. -/
inductive Steps (s : State T) (t : T) (p : Place T) : State T → Prop where
  | waits : Steps s t p s
  | moves {x : Shared T} {p' : Place T} (arg : ℤ) (h : Moves t s.shared p x p') :
    Steps s t p ⟨x, Function.update s.phase t (p'.phase t arg)⟩

variable {s : State T} {t : T} {p p' : Place T} {arg : ℤ} {input : Input}

section Rules

variable {α : Type} {during : Method T α → Phase T} {after : Except Unchecked α → Phase T}
  {code : Method T α}

theorem steps_performs (arg : ℤ) {x : Shared T} {o : Op T} {b : o.Answer T}
    {next : o.Answer T → Method T α} (hm : Moves t s.shared p x p')
    (hcode : code = .perform o next) (hperform : s.shared.perform t input o = some (x, b))
    (hnext : during (next b) = p'.phase t arg) :
    Steps s t p (s.advance t input during after code) := by
  subst hcode
  simp only [State.advance, hperform, hnext]
  exact .moves arg hm

theorem steps_loops (arg : ℤ) {σ β : Type} {body : σ → Code T (σ ⊕ β)} {c : σ}
    {next : β → Method T α} (hm : Moves t s.shared p s.shared p') (hcode : code = .loop body c next)
    (hnext : during (unroll body c next) = p'.phase t arg) :
    Steps s t p (s.advance t input during after code) := by
  subst hcode
  simp only [State.advance, hnext]
  exact .moves arg hm

theorem steps_waits {next : Unit → Method T α} (hcode : code = .perform .park next)
    (hpermit : s.shared.permit t ≠ true) : Steps s t p (s.advance t input during after code) := by
  have hperform : s.shared.perform t input .park = none := if_neg hpermit
  subst hcode
  simp only [State.advance, hperform]
  exact .waits

end Rules

theorem steps_adding {node : Ref} {a : Adding} :
    Steps s t (.adding node a) (s.advance t input .acquiring State.acquired do
      let node ← a.code node
      queueing node arg false) := by
  cases a with
  | readTail =>
    cases htail : s.shared.memory.field .tail with
    | none =>
      exact steps_performs arg (.reads (.adding (.readsNoTail htail))) rfl (perform_get htail) rfl
    | some pred =>
      exact steps_performs arg (.reads (.adding (.readsTail htail))) rfl (perform_get htail) rfl
  | loop =>
    refine steps_loops arg (.reads (.adding .again)) rfl (congrArg Phase.acquiring ?_)
    -- after either compare-and-set the two sides are the same code
    refine perform_congr fun t => ?_
    cases t with
    | none =>
      refine perform_congr fun h => perform_congr fun b => ?_
      cases b
      · rfl
      · rfl
    | some t =>
      refine perform_congr fun _ => perform_congr fun b => ?_
      cases b
      · rfl
      · rfl
  | enqTail =>
    cases htail : s.shared.memory.field .tail with
    | none =>
      exact steps_performs arg (.reads (.adding (.enqReadsNoTail htail))) rfl (perform_get htail) rfl
    | some t =>
      exact steps_performs arg (.reads (.adding (.enqReadsTail htail))) rfl (perform_get htail) rfl
  | newHead => exact steps_performs arg .createsHead rfl rfl rfl
  | casHead h =>
    by_cases hhead : s.shared.memory.field .head = none
    · exact steps_performs arg (.setsHead hhead) rfl (perform_compareAndSet hhead _) rfl
    · exact steps_performs arg (.reads (.adding (.headFails hhead))) rfl
        (perform_compareAndSet_fails hhead _ _) rfl
  | getHead => exact steps_performs arg (.reads (.adding .readsHead)) rfl (perform_get rfl) rfl
  | setTail h => exact steps_performs arg .setsTail rfl rfl rfl
  | setPrev pred => exact steps_performs arg .setsPrev rfl rfl rfl
  | casTail pred =>
    by_cases htail : s.shared.memory.field .tail = some pred
    · exact steps_performs arg (.appends htail) rfl (perform_append htail) rfl
    · exact steps_performs arg (.reads (.adding (.tailFails htail))) rfl
        (perform_compareAndSet_fails htail _ _) rfl

theorem steps_waiting (hcalm : Calm s.shared) {node : Ref} {w : Waiting}
    (hprev : s.shared.memory.field (.prev node) ≠ none) :
    Steps s t (.waiting node w) (s.advance t input .acquiring State.acquired (w.code node arg)) := by
  cases w with
  | setNext pred => exact steps_performs arg .setsNext rfl rfl rfl
  | loop =>
    refine steps_loops arg (.reads (.waiting .again)) rfl (congrArg Phase.acquiring ?_)
    refine (bind_assoc (Waiting.getPrev.turn node arg) _ _).trans (bind_congr fun r => ?_)
    match r with
    | .ok (.inl _) => rfl
    | .ok (.inr (true, b)) =>
      refine (bind_assoc (cancelAcquire node) _ _).trans (bind_congr fun r => ?_)
      cases r with
      | ok _ => rfl
      | error e => rfl
    | .ok (.inr (false, true)) => rfl
    | .ok (.inr (false, false)) => rfl
    | .error e =>
      refine (bind_assoc (cancelAcquire node) _ _).trans (bind_congr fun r => ?_)
      cases r with
      | ok _ => rfl
      | error e => rfl
  | getPrev =>
    obtain ⟨p, hp⟩ := Option.ne_none_iff_exists'.mp hprev
    exact steps_performs arg (.reads (.waiting (.readsPrev hp))) rfl (perform_get hp) rfl
  | getHead p =>
    by_cases hhead : s.shared.memory.field .head = some p
    · refine steps_performs arg (.reads (.waiting (.atHead hhead))) rfl (perform_get hhead) ?_
      exact congrArg (fun m => Phase.acquiring (afterTurn node arg (attempting p node m)))
        (if_pos rfl)
    · refine steps_performs arg (.reads (.waiting (.notAtHead hhead))) rfl (perform_get rfl) ?_
      exact congrArg (fun m => Phase.acquiring (afterTurn node arg (attempting p node m)))
        (if_neg (Ne.symm hhead))
  | tryAcquire p =>
    by_cases hstate : s.shared.state = 0
    · exact steps_performs arg (.wins hstate) rfl (perform_tryAcquire hstate _) rfl
    · exact steps_performs arg (.reads (.waiting (.fails hstate))) rfl
        (perform_tryAcquire_fails hstate _) rfl
  | getStatus p =>
    by_cases hws : s.shared.memory.waitStatus p = SIGNAL
    · refine steps_performs arg (.reads (.waiting (.signalled hws))) rfl (perform_getWaitStatus p) ?_
      exact congrArg (fun m => Phase.acquiring (afterTurn node arg (parking m))) (if_pos hws)
    · refine steps_performs arg (.reads (.waiting (.unsignalled hws))) rfl
        (perform_getWaitStatus p) ?_
      exact congrArg (fun m => Phase.acquiring (afterTurn node arg (parking m)))
        ((if_neg hws).trans (if_neg (hcalm.not_pos p)))
  | casStatus p ws =>
    by_cases hws : s.shared.memory.waitStatus p = ws
    · subst hws
      exact steps_performs arg .signals rfl (perform_compareAndSetWaitStatus rfl _ _) rfl
    · exact steps_performs arg (.reads (.waiting (.statusFails hws))) rfl
        (perform_compareAndSetWaitStatus_fails hws _ _) rfl
  | park p =>
    by_cases hpermit : s.shared.permit t = true
    · exact steps_performs arg (.parks hpermit) rfl (perform_park hpermit) rfl
    · exact steps_waits rfl hpermit
  | interrupted =>
    exact steps_performs arg (.reads (.waiting .goesOn)) rfl (perform_interrupted (hcalm.flags t)) rfl

theorem steps_promoting {node p : Ref} {q : Promoting} :
    Steps s t (.promoting node p q) (s.advance t input .acquiring State.acquired
      (q.code node p)) := by
  cases q with
  | setHead => exact steps_performs 0 .promotes rfl rfl rfl
  | setThread => exact steps_performs 0 .clearsThread rfl rfl rfl
  | setPrev => exact steps_performs 0 .clearsPrev rfl rfl rfl
  | setNext => exact steps_performs 0 .clearsNext rfl rfl rfl

theorem steps_waking (hcalm : Calm s.shared) {h : Ref} {w : Waking} :
    Steps s t (.waking h w) (s.advance t input .releasing (fun _ => .outside)
      (afterWake (w.code h))) := by
  cases w with
  | getStatus =>
    by_cases hws : s.shared.memory.waitStatus h < 0
    · refine steps_performs 0 (.reads (.waking (.signalled hws))) rfl (perform_getWaitStatus h) ?_
      exact congrArg (fun m : Method T Bool => Phase.releasing (afterWake do let _ ← m; wakeNext h))
        (if_pos hws)
    · refine steps_performs 0 (.reads (.waking (.unsignalled hws))) rfl (perform_getWaitStatus h) ?_
      exact congrArg (fun m : Method T Bool => Phase.releasing (afterWake do let _ ← m; wakeNext h))
        (if_neg hws)
  | casStatus ws =>
    by_cases hws : s.shared.memory.waitStatus h = ws
    · subst hws
      exact steps_performs 0 .resets rfl (perform_compareAndSetWaitStatus rfl _ _) rfl
    · exact steps_performs 0 (.reads (.waking (.statusFails hws))) rfl
        (perform_compareAndSetWaitStatus_fails hws _ _) rfl
  | getNext =>
    cases hnext : s.shared.memory.field (.next h) with
    | none =>
      exact steps_performs 0 (.reads (.waking (.readsNoNext hnext))) rfl (perform_get hnext) rfl
    | some n =>
      exact steps_performs 0 (.reads (.waking (.readsNext hnext))) rfl (perform_get hnext) rfl
  | getNextStatus n =>
    refine steps_performs 0 (.reads (.waking .readsNextStatus)) rfl (perform_getWaitStatus n) ?_
    exact congrArg (fun cancelled : Bool => Phase.releasing (afterWake (if cancelled then do
      let s ← closestFromTail h
      unparkThread s else unparkThread (some n)))) (decide_eq_false (hcalm.not_pos n))
  | getTail => exact steps_performs 0 (.reads (.waking .readsTail)) rfl (perform_get rfl) rfl
  | loop c n =>
    match c, n with
    | none, none => exact steps_loops 0 (.reads (.findsNone (.inl rfl))) rfl rfl
    | none, some n => exact steps_loops 0 (.reads (.waking (.finds (.inl rfl)))) rfl rfl
    | some c, n =>
      by_cases hc : c = h
      · subst hc
        cases n with
        | none =>
          refine steps_loops 0 (.reads (.findsNone (.inr rfl))) rfl (congrArg Phase.releasing ?_)
          simp only [unroll, ↓reduceIte]
          rfl
        | some n =>
          refine steps_loops 0 (.reads (.waking (.finds (.inr rfl)))) rfl
            (congrArg Phase.releasing ?_)
          simp only [unroll, ↓reduceIte]
          rfl
      · refine steps_loops 0 (.reads (.waking (.goesOn hc))) rfl (congrArg Phase.releasing ?_)
        simp only [unroll, if_neg hc]
        rfl
  | getCursorStatus c n =>
    exact steps_performs 0 (.reads (.waking .readsCursorStatus)) rfl (perform_getWaitStatus c) rfl
  | getCursorPrev c ws n =>
    exact steps_performs 0 (.reads (.waking .readsCursorPrev)) rfl (perform_get rfl) rfl
  | getThread n => exact steps_performs 0 (.reads .readsThread) rfl rfl rfl

/-- A step of a thread whose code is that of the place. -/
theorem steps_of_phase (hcalm : Calm s.shared)
    (hprev : ∀ node w, p = .waiting node w → s.shared.memory.field (.prev node) ≠ none)
    (hphase : s.phase t = p.phase t arg) (a : ℤ) (input : Input) :
    Steps s t p (s.step ⟨t, a, input⟩) := by
  simp only [State.step, hphase]
  cases p with
  | outside => exact .moves a (.reads .calls)
  | tryAcquire =>
    by_cases hstate : s.shared.state = 0
    · exact steps_performs arg (.acquires hstate) rfl (perform_tryAcquire hstate _) rfl
    · exact steps_performs arg (.reads (.fails hstate)) rfl (perform_tryAcquire_fails hstate _) rfl
  | newNode => exact steps_performs arg .creates rfl rfl rfl
  | adding node a => exact steps_adding
  | waiting node w => exact steps_waiting hcalm (hprev node w rfl)
  | promoting node p q => exact steps_promoting
  | acquired => exact .moves a (.reads .returns)
  | holding => exact .moves a (.reads .callsRelease)
  | tryRelease => exact steps_performs arg .releases rfl rfl rfl
  | getHead =>
    cases hhead : s.shared.memory.field .head with
    | none => exact steps_performs arg (.reads (.readsNoHead hhead)) rfl (perform_get hhead) rfl
    | some h => exact steps_performs arg (.reads (.readsHead hhead)) rfl (perform_get hhead) rfl
  | getHeadStatus h =>
    by_cases hws : s.shared.memory.waitStatus h = 0
    · refine steps_performs arg (.reads (.unsignalled hws)) rfl (perform_getWaitStatus h) ?_
      exact congrArg (fun m => Phase.releasing (afterWake m)) (if_neg (not_not_intro hws))
    · refine steps_performs arg (.reads (.signalled hws)) rfl (perform_getWaitStatus h) ?_
      exact congrArg (fun m => Phase.releasing (afterWake m)) (if_pos hws)
  | waking h w => exact steps_waking hcalm
  | unpark thread =>
    cases thread with
    | none => exact steps_performs arg (.reads .unparksNone) rfl rfl rfl
    | some u => exact steps_performs arg .unparks rfl rfl rfl
  | released => exact .moves a (.reads .returnsRelease)

end BigPlan.QueuedSynchronizer.Exclusive
