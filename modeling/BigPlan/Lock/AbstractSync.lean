import BigPlan.Lib.Java
import BigPlan.Lib.Runs
import Mathlib.Logic.Function.Basic
import Mathlib.Data.Int.Notation

/-!
# Hold counts of the reentrant lock

Threads lock and release in steps, each of which reads or writes the state or the owner once, or
compares and sets the state. `nonfairTryAcquire` does not return true after the compare-and-set
with which it takes a free lock, so a thread that gets the lock in this way tries again and holds
it twice. As long as this compare-and-set fails, the counts are right; the fair lock has no such
slip.
-/
namespace BigPlan.Lock

open Lib.Java Lib.Runs

/-- `NonfairSync` and `FairSync`. -/
inductive Sync where
  | nonfair
  | fair
  deriving DecidableEq, Repr

/-- How often a lock is to be acquired. -/
abbrev Acquires := { n : ℤ // 0 < n ∧ n < 2 ^ 31 }

def one : Acquires := ⟨1, by decide, by decide⟩

/-- `release` is `release(1)`. -/
inductive Call where
  | lock
  | tryAcquire (acquires : Acquires)
  | release
  deriving DecidableEq

/-- Where `tryAcquire` was called: by `acquire(1)` in `lock`, or as such. -/
inductive Caller where
  | lock
  | direct (acquires : Acquires)
  deriving DecidableEq

def Caller.acquires : Caller → Acquires
  | lock => one
  | direct acquires => acquires

/-- The next step of a thread. -/
inductive Pc where
  | idle
  | lockCompareAndSet
  | lockSetOwner
  | getState (caller : Caller)
  | hasQueuedPredecessors (caller : Caller)
  | compareAndSet (caller : Caller)
  | setOwner (caller : Caller)
  | getOwner (caller : Caller) (c : ℤ)
  | setState (caller : Caller) (nextc : ℤ)
  | releaseGetState
  | releaseGetOwner (c : ℤ)
  | releaseClearOwner (c : ℤ)
  | releaseSetState (c : ℤ)
  deriving DecidableEq

/-- What a call of `tryAcquire` has returned, by how much it has raised the state, whether it has
written the state or the owner, and who was the owner then. -/
structure Outcome (T : Type) where
  thread : T
  acquires : Acquires
  result : Bool
  raised : ℤ
  touched : Bool
  owner : Option T
  deriving DecidableEq

/-- The state and the owner are shared. What calls of `tryAcquire` have done, and the calls that
were completed, are on record. -/
structure State (T : Type) where
  state : ℤ
  owner : Option T
  pc : T → Pc
  raised : T → ℤ
  touched : T → Bool
  outcomes : List (Outcome T)
  locks : T → ℕ
  tried : T → ℤ
  releases : T → ℕ

/-- The thread that takes the next step, the call that it makes if it is in none, and the answer
of `hasQueuedPredecessors` if it asks. -/
structure Turn (T : Type) where
  thread : T
  call : Call
  predecessors : Bool
  deriving DecidableEq

namespace State

variable {T : Type} [DecidableEq T]

def start : State T where
  state := 0
  owner := none
  pc _ := .idle
  raised _ := 0
  touched _ := false
  outcomes := []
  locks _ := 0
  tried _ := 0
  releases _ := 0

def goto (s : State T) (t : T) (pc : Pc) : State T := { s with pc := Function.update s.pc t pc }

/-- A call of `tryAcquire`. -/
def enter (s : State T) (t : T) (caller : Caller) : State T :=
  { s.goto t (.getState caller) with
    raised := Function.update s.raised t 0
    touched := Function.update s.touched t false }

/-- `tryAcquire` writes the state. -/
def write (s : State T) (t : T) (state : ℤ) : State T :=
  { s with
    state := state
    raised := Function.update s.raised t (s.raised t + (state - s.state))
    touched := Function.update s.touched t true }

def record (s : State T) (t : T) (acquires : Acquires) (result : Bool) : State T :=
  { s with
    outcomes := ⟨t, acquires, result, s.raised t, s.touched t, s.owner⟩ :: s.outcomes }

/-- `lock` is done. -/
def locked (s : State T) (t : T) : State T :=
  { s.goto t .idle with locks := Function.update s.locks t (s.locks t + 1) }

/-- `tryAcquire` returns. In `lock` a call that returns false is made again. -/
def leave (s : State T) (t : T) (caller : Caller) (result : Bool) : State T :=
  let s := s.record t caller.acquires result
  match caller, result with
  | .lock, true => s.locked t
  | .lock, false => s.enter t .lock
  | .direct acquires, true =>
    { s.goto t .idle with tried := Function.update s.tried t (s.tried t + acquires) }
  | .direct _, false => s.goto t .idle

/-- One step of a thread. -/
def step (sync : Sync) (s : State T) (turn : Turn T) : State T :=
  let t := turn.thread
  match s.pc t with
  | .idle =>
    match turn.call, sync with
    | .lock, .nonfair => s.goto t .lockCompareAndSet
    | .lock, .fair => s.enter t .lock
    | .tryAcquire acquires, _ => s.enter t (.direct acquires)
    | .release, _ => s.goto t .releaseGetState
  | .lockCompareAndSet =>
    if s.state = 0 then { s.goto t .lockSetOwner with state := 1 } else s.enter t .lock
  | .lockSetOwner => { s.locked t with owner := some t }
  | .getState caller =>
    if s.state = 0 then
      match sync with
      | .nonfair => s.goto t (.compareAndSet caller)
      | .fair => s.goto t (.hasQueuedPredecessors caller)
    else s.goto t (.getOwner caller s.state)
  | .hasQueuedPredecessors caller =>
    if turn.predecessors then s.leave t caller false else s.goto t (.compareAndSet caller)
  | .compareAndSet caller =>
    if s.state = 0 then (s.write t caller.acquires).goto t (.setOwner caller)
    else s.leave t caller false
  | .setOwner caller =>
    -- the nonfair branch goes on to the return of false
    leave { s with owner := some t } t caller (sync == .fair)
  | .getOwner caller c =>
    if s.owner = some t then
      let nextc := wrap (c + caller.acquires)
      -- "Maximum lock count exceeded"
      if nextc < 0 then s.goto t .idle else s.goto t (.setState caller nextc)
    else s.leave t caller false
  | .setState caller nextc => (s.write t nextc).leave t caller true
  | .releaseGetState => s.goto t (.releaseGetOwner (wrap (s.state - 1)))
  | .releaseGetOwner c =>
    if s.owner = some t then
      if c = 0 then s.goto t (.releaseClearOwner c) else s.goto t (.releaseSetState c)
    -- an IllegalMonitorStateException
    else s.goto t .idle
  | .releaseClearOwner c => { s.goto t (.releaseSetState c) with owner := none }
  | .releaseSetState c =>
    { s.goto t .idle with state := c, releases := Function.update s.releases t (s.releases t + 1) }

/-- `getHoldCount()` of the thread. -/
def getHoldCount (s : State T) (t : T) : ℤ := if s.owner = some t then s.state else 0

/-- How often the thread has acquired the lock without releasing it. -/
def balance (s : State T) (t : T) : ℤ := s.locks t + s.tried t - s.releases t

end State

/-- A call has returned true if and only if it has raised the state for its thread, and otherwise
has written nothing. -/
def Outcome.Right {T : Type} (o : Outcome T) : Prop :=
  (o.result = true ↔ o.raised = o.acquires ∧ o.owner = some o.thread) ∧
    (o.result = false → o.touched = false)

namespace State

variable {T : Type} [DecidableEq T]

/-- The calls of `tryAcquire` were right; without a thread in a call, the state is 0 exactly if
there is no owner; and a thread in no call holds the lock as often as it has acquired it and not
released it, so that the lock is free if no thread holds it. -/
structure Counted (s : State T) : Prop where
  outcomes_right : ∀ o ∈ s.outcomes, o.Right
  free_iff : (∀ t, s.pc t = .idle) → (s.state = 0 ↔ s.owner = none)
  holdCount_eq : ∀ t, s.pc t = .idle → s.getHoldCount t = s.balance t
  free_of_balance : (∀ t, s.pc t = .idle) → (∀ t, s.balance t = 0) →
    s.state = 0 ∧ s.owner = none
  state_range : 0 ≤ s.state ∧ s.state < 2 ^ 31

/-! ## The holder -/

variable {sync : Sync} {s s' : State T} {t u : T} {pc : Pc} {holder : Option T}

/-- A thread that does not hold the lock is at none of the steps that only the holder takes. -/
def Outside : Pc → Prop
  | .lockSetOwner | .setOwner _ | .setState _ _ | .releaseClearOwner _ | .releaseSetState _ => False
  | _ => True

/-- The thread holds the lock: from the compare-and-set of the state up to the write of 0. -/
def HeldAt (sync : Sync) (s : State T) (t : T) : Pc → Prop
  | .lockSetOwner => s.owner = none ∧ s.state = 1 ∧ s.balance t = 0
  | .setOwner caller =>
    sync = .fair ∧ s.owner = none ∧ s.state = caller.acquires ∧ s.balance t = 0
  | .getOwner _ c => s.owner = some t ∧ s.balance t = s.state ∧ c = s.state
  | .setState caller nextc =>
    s.owner = some t ∧ s.balance t = s.state ∧ nextc = s.state + caller.acquires ∧ nextc < 2 ^ 31
  | .releaseGetOwner c => s.owner = some t ∧ s.balance t = s.state ∧ c = s.state - 1
  | .releaseClearOwner c => s.owner = some t ∧ s.balance t = s.state ∧ c = s.state - 1 ∧ c = 0
  | .releaseSetState c =>
    s.owner = (if c = 0 then none else some t) ∧ s.balance t = s.state ∧ c = s.state - 1
  | _ => s.owner = some t ∧ s.balance t = s.state

/-- What a call of `tryAcquire` has done so far. -/
def Recorded (s : State T) (t : T) : Pc → Prop
  | .getState _ | .hasQueuedPredecessors _ | .compareAndSet _ | .getOwner _ _ | .setState _ _ =>
    s.raised t = 0 ∧ s.touched t = false
  | .setOwner caller => s.raised t = caller.acquires
  | _ => True

/-- At most one thread holds the lock. -/
structure Inv (sync : Sync) (s : State T) (holder : Option T) : Prop where
  outside : ∀ t, holder ≠ some t → Outside (s.pc t) ∧ s.balance t = 0
  free : holder = none → s.state = 0 ∧ s.owner = none
  held : ∀ t, holder = some t → 0 < s.state ∧ s.state < 2 ^ 31 ∧ HeldAt sync s t (s.pc t)
  recorded : ∀ t, Recorded s t (s.pc t)
  outcomes_right : ∀ o ∈ s.outcomes, o.Right

/-- A step of the thread leaves what the other threads have on record. -/
def SameElsewhere (s s' : State T) (t : T) : Prop :=
  ∀ u, u ≠ t → s'.pc u = s.pc u ∧ s'.balance u = s.balance u ∧ s'.raised u = s.raised u ∧
    s'.touched u = s.touched u

omit [DecidableEq T] in
theorem SameElsewhere.trans {s'' : State T} (h : SameElsewhere s s' t)
    (h' : SameElsewhere s' s'' t) : SameElsewhere s s'' t := by
  intro u hu
  obtain ⟨hpc, hbalance, hraised, htouched⟩ := h u hu
  obtain ⟨hpc', hbalance', hraised', htouched'⟩ := h' u hu
  exact ⟨hpc'.trans hpc, hbalance'.trans hbalance, hraised'.trans hraised,
    htouched'.trans htouched⟩

theorem sameElsewhere_goto (s : State T) (t : T) (pc : Pc) : SameElsewhere s (s.goto t pc) t :=
  fun _ hu => ⟨Function.update_of_ne hu _ _, rfl, rfl, rfl⟩

theorem sameElsewhere_enter (s : State T) (t : T) (caller : Caller) :
    SameElsewhere s (s.enter t caller) t :=
  fun _ hu => ⟨Function.update_of_ne hu _ _, rfl, Function.update_of_ne hu _ _,
    Function.update_of_ne hu _ _⟩

theorem sameElsewhere_write (s : State T) (t : T) (state : ℤ) :
    SameElsewhere s (s.write t state) t :=
  fun _ hu => ⟨rfl, rfl, Function.update_of_ne hu _ _, Function.update_of_ne hu _ _⟩

theorem sameElsewhere_locked (s : State T) (t : T) : SameElsewhere s (s.locked t) t := by
  intro u hu
  refine ⟨Function.update_of_ne hu _ _, ?_, rfl, rfl⟩
  simp only [locked, goto, balance, Function.update_of_ne hu]

theorem sameElsewhere_leave (s : State T) (t : T) (caller : Caller) (result : Bool) :
    SameElsewhere s (s.leave t caller result) t := by
  cases caller with
  | lock =>
    cases result with
    | true => exact sameElsewhere_locked _ t
    | false => exact sameElsewhere_enter _ t _
  | direct acquires =>
    cases result with
    | true =>
      intro u hu
      refine ⟨Function.update_of_ne hu _ _, ?_, rfl, rfl⟩
      simp only [leave, record, goto, balance, Function.update_of_ne hu]
    | false => exact sameElsewhere_goto _ t _

omit [DecidableEq T] in
theorem recorded_congr (hraised : s'.raised u = s.raised u)
    (htouched : s'.touched u = s.touched u) : Recorded s' u pc ↔ Recorded s u pc := by
  unfold Recorded
  rw [hraised, htouched]

omit [DecidableEq T] in
theorem heldAt_congr (howner : s'.owner = s.owner) (hstate : s'.state = s.state)
    (hbalance : s'.balance u = s.balance u) : HeldAt sync s' u pc ↔ HeldAt sync s u pc := by
  unfold HeldAt
  rw [howner, hstate, hbalance]

omit [DecidableEq T] in
theorem SameElsewhere.outside (hsame : SameElsewhere s s' t) (hut : u ≠ t)
    (hout : Outside (s.pc u) ∧ s.balance u = 0) : Outside (s'.pc u) ∧ s'.balance u = 0 := by
  obtain ⟨hpc, hbal, -, -⟩ := hsame u hut
  rw [hpc, hbal]
  exact hout

/-- What the other threads have on record is right after a step of one thread. -/
theorem Inv.recorded_step (h : Inv sync s holder) (hsame : SameElsewhere s s' t)
    (hpc : s'.pc t = pc) (hrecorded : Recorded s' t pc) (u : T) : Recorded s' u (s'.pc u) := by
  by_cases hut : u = t
  · rw [hut, hpc]
    exact hrecorded
  · obtain ⟨hpc, -, hraised, htouched⟩ := hsame u hut
    rw [hpc, recorded_congr hraised htouched]
    exact h.recorded u

/-- A step of a thread that does not hold the lock, and does not get it. -/
theorem Inv.waiting (h : Inv sync s holder) (hne : holder ≠ some t) (hsame : SameElsewhere s s' t)
    (hstate : s'.state = s.state) (howner : s'.owner = s.owner) (hpc : s'.pc t = pc)
    (hout : Outside pc) (hbalance : s'.balance t = 0) (hrecorded : Recorded s' t pc)
    (hright : ∀ o ∈ s'.outcomes, o.Right) : Inv sync s' holder where
  outside u hu := by
    by_cases hut : u = t
    · rw [hut, hpc]
      exact ⟨hout, hbalance⟩
    · exact hsame.outside hut (h.outside u hu)
  free hnone := by
    rw [hstate, howner]
    exact h.free hnone
  held u hu := by
    have hut : u ≠ t := by
      intro heq
      rw [heq] at hu
      exact hne hu
    obtain ⟨hpc, hbal, -, -⟩ := hsame u hut
    rw [hpc, hstate, heldAt_congr howner hstate hbal]
    exact h.held u hu
  recorded := h.recorded_step hsame hpc hrecorded
  outcomes_right := hright

/-- A step of the thread that holds the lock, or gets it. -/
theorem Inv.holding (h : Inv sync s holder) (hholder : ∀ u, u ≠ t → holder ≠ some u)
    (hsame : SameElsewhere s s' t) (hpos : 0 < s'.state) (hlt : s'.state < 2 ^ 31)
    (hpc : s'.pc t = pc) (hheld : HeldAt sync s' t pc) (hrecorded : Recorded s' t pc)
    (hright : ∀ o ∈ s'.outcomes, o.Right) : Inv sync s' (some t) where
  outside u hu := by
    have hut : u ≠ t := fun heq => hu (by rw [heq])
    exact hsame.outside hut (h.outside u (hholder u hut))
  free hnone := by cases hnone
  held u hu := by
    cases hu
    rw [hpc]
    exact ⟨hpos, hlt, hheld⟩
  recorded := h.recorded_step hsame hpc hrecorded
  outcomes_right := hright

/-- The step with which the holder frees the lock. -/
theorem Inv.freeing (h : Inv sync s (some t)) (hsame : SameElsewhere s s' t)
    (hstate : s'.state = 0) (howner : s'.owner = none) (hpc : s'.pc t = pc) (hout : Outside pc)
    (hbalance : s'.balance t = 0) (hrecorded : Recorded s' t pc)
    (hright : ∀ o ∈ s'.outcomes, o.Right) : Inv sync s' none where
  outside u _ := by
    by_cases hut : u = t
    · rw [hut, hpc]
      exact ⟨hout, hbalance⟩
    · exact hsame.outside hut (h.outside u fun heq => hut (Option.some_inj.mp heq).symm)
  free _ := ⟨hstate, howner⟩
  held u hu := by cases hu
  recorded := h.recorded_step hsame hpc hrecorded
  outcomes_right := hright

/-- Only the holder can be the owner. -/
theorem Inv.holder_of_owner (h : Inv sync s holder) (howner : s.owner = some t) :
    holder = some t := by
  cases holder with
  | none =>
    rw [(h.free rfl).2] at howner
    cases howner
  | some u =>
    have hheld := (h.held u rfl).2.2
    by_contra hne
    unfold HeldAt at hheld
    split at hheld <;> simp_all

/-- Only the holder is at a step that is the holder's. -/
theorem Inv.holder_of_inside (h : Inv sync s holder) (hinside : ¬ Outside (s.pc t)) :
    holder = some t := by
  by_contra hne
  exact hinside (h.outside t hne).1

omit [DecidableEq T] in
/-- Nobody holds the lock while the state is 0. -/
theorem Inv.free_of_zero (h : Inv sync s holder) (hzero : s.state = 0) : holder = none := by
  cases holder with
  | none => rfl
  | some u =>
    have hpos := (h.held u rfl).1
    omega

/-- A step that leaves the state, the owner and the balance as they are. -/
theorem Inv.quiet (h : Inv sync s holder) (hsame : SameElsewhere s s' t)
    (hstate : s'.state = s.state) (howner : s'.owner = s.owner)
    (hbalance : s'.balance t = s.balance t) (hpc : s'.pc t = pc) (hout : Outside pc)
    (hheld : holder = some t → HeldAt sync s' t pc) (hrecorded : Recorded s' t pc)
    (hright : ∀ o ∈ s'.outcomes, o.Right) : Inv sync s' holder := by
  by_cases hholder : holder = some t
  · have hrange := h.held t hholder
    have hother : ∀ u, u ≠ t → holder ≠ some u := by
      intro u hu heq
      rw [hholder] at heq
      exact hu (Option.some_inj.mp heq).symm
    rw [hholder]
    exact h.holding hother hsame (hstate ▸ hrange.1) (hstate ▸ hrange.2.1) hpc (hheld hholder)
      hrecorded hright
  · exact h.waiting hholder hsame hstate howner hpc hout
      (hbalance.trans (h.outside t hholder).2) hrecorded hright

/-! ## Steps -/

@[simp] theorem pc_goto (pc : Pc) : (s.goto t pc).pc t = pc := Function.update_self _ _ _

@[simp] theorem state_leave (caller : Caller) (result : Bool) :
    (s.leave t caller result).state = s.state := by
  cases caller <;> cases result <;> rfl

@[simp] theorem owner_leave (caller : Caller) (result : Bool) :
    (s.leave t caller result).owner = s.owner := by
  cases caller <;> cases result <;> rfl

@[simp] theorem outcomes_leave (caller : Caller) (result : Bool) :
    (s.leave t caller result).outcomes =
      ⟨t, caller.acquires, result, s.raised t, s.touched t, s.owner⟩ :: s.outcomes := by
  cases caller <;> cases result <;> rfl

@[simp] theorem pc_leave_true (caller : Caller) : (s.leave t caller true).pc t = .idle := by
  cases caller <;> exact Function.update_self _ _ _

@[simp] theorem balance_leave_true (caller : Caller) :
    (s.leave t caller true).balance t = s.balance t + caller.acquires := by
  cases caller with
  | lock =>
    simp only [leave, record, locked, goto, balance, Function.update_self, Caller.acquires, one]
    omega
  | direct acquires =>
    simp only [leave, record, goto, balance, Function.update_self, Caller.acquires]
    omega

@[simp] theorem balance_leave_false (caller : Caller) :
    (s.leave t caller false).balance t = s.balance t := by
  cases caller <;> rfl

/-- After a call that has returned false the thread is in no call, or makes the call again. -/
def afterFalse : Caller → Pc
  | .lock => .getState .lock
  | .direct _ => .idle

theorem pc_leave_false (caller : Caller) : (s.leave t caller false).pc t = afterFalse caller := by
  cases caller <;> exact Function.update_self _ _ _

theorem recorded_leave_false (caller : Caller) :
    Recorded (s.leave t caller false) t (afterFalse caller) := by
  cases caller with
  | lock => exact ⟨Function.update_self _ _ _, Function.update_self _ _ _⟩
  | direct acquires => trivial

/-- A call that has written nothing returns false. -/
theorem Inv.leave_false (h : Inv sync s holder) (caller : Caller)
    (howned : holder = some t → s.owner = some t ∧ s.balance t = s.state)
    (hraised : s.raised t = 0) (htouched : s.touched t = false) :
    Inv sync (s.leave t caller false) holder := by
  refine h.quiet (sameElsewhere_leave s t caller false) (state_leave _ _) (owner_leave _ _)
    (balance_leave_false _) (pc_leave_false caller) ?_ ?_ (recorded_leave_false caller) ?_
  · cases caller <;> trivial
  · intro hholder
    have hheld := howned hholder
    rw [heldAt_congr (owner_leave _ _) (state_leave _ _) (balance_leave_false _)]
    cases caller <;> exact hheld
  · intro o ho
    rw [outcomes_leave] at ho
    obtain rfl | hold := List.mem_cons.mp ho
    · have hpos := caller.acquires.2.1
      refine ⟨iff_of_false Bool.false_ne_true ?_, fun _ => htouched⟩
      intro hright
      have heq : s.raised t = caller.acquires := hright.1
      omega
    · exact h.outcomes_right o hold

/-- A call that has raised the state returns true. -/
theorem Inv.leave_true (h : Inv sync s holder) (s' : State T) (hright : ∀ o ∈ s'.outcomes, o.Right)
    (hholder : ∀ u, u ≠ t → holder ≠ some u) (hsame : SameElsewhere s s' t) (caller : Caller)
    (howner : s'.owner = some t) (hraised : s'.raised t = caller.acquires)
    (hbalance : s'.balance t + caller.acquires = s'.state) (hpos : 0 < s'.state)
    (hlt : s'.state < 2 ^ 31) : Inv sync (s'.leave t caller true) (some t) := by
  refine h.holding hholder (hsame.trans (sameElsewhere_leave s' t caller true))
    (by rwa [state_leave]) (by rwa [state_leave]) (pc_leave_true caller) ?_ trivial ?_
  · exact ⟨by rwa [owner_leave], by rw [balance_leave_true, state_leave, hbalance]⟩
  · intro o ho
    rw [outcomes_leave] at ho
    obtain rfl | hold := List.mem_cons.mp ho
    · exact ⟨iff_of_true rfl ⟨hraised, howner⟩, fun hresult => by cases hresult⟩
    · exact hright o hold

theorem Inv.goto (h : Inv sync s holder) (hout : Outside pc)
    (hheld : holder = some t → HeldAt sync s t pc) (hrecorded : Recorded s t pc) :
    Inv sync (s.goto t pc) holder :=
  h.quiet (sameElsewhere_goto s t pc) rfl rfl rfl (pc_goto pc) hout hheld hrecorded h.outcomes_right

theorem Inv.enter (h : Inv sync s holder) (caller : Caller)
    (howned : holder = some t → s.owner = some t ∧ s.balance t = s.state) :
    Inv sync (s.enter t caller) holder :=
  h.quiet (sameElsewhere_enter s t caller) rfl rfl rfl (pc_goto _) trivial howned
    ⟨Function.update_self _ _ _, Function.update_self _ _ _⟩ h.outcomes_right

omit [DecidableEq T] in
/-- No other thread holds the lock. -/
theorem other_of_holder (hholder : holder = some t ∨ holder = none) :
    ∀ u, u ≠ t → holder ≠ some u := by
  intro u hu heq
  obtain hsome | hnone := hholder
  · rw [hsome] at heq
    exact hu (Option.some_inj.mp heq).symm
  · rw [hnone] at heq
    cases heq

/-! ## Locking -/

/-- A thread takes the free lock by `compareAndSetState(0, 1)`. -/
theorem Inv.lockCompareAndSet (h : Inv sync s holder) (hzero : s.state = 0) :
    Inv sync { s.goto t .lockSetOwner with state := 1 } (some t) := by
  obtain rfl := h.free_of_zero hzero
  exact h.holding (other_of_holder (Or.inr rfl)) (sameElsewhere_goto s t _) Int.zero_lt_one
    (show (1 : ℤ) < 2 ^ 31 by decide) (pc_goto _)
    ⟨(h.free rfl).2, rfl, (h.outside t (Option.some_ne_none t).symm).2⟩ trivial h.outcomes_right

theorem Inv.lockSetOwner (h : Inv sync s holder) (hpc : s.pc t = .lockSetOwner) :
    Inv sync { s.locked t with owner := some t } (some t) := by
  obtain rfl := h.holder_of_inside (t := t) (by rw [hpc]; exact id)
  obtain ⟨hpos, hlt, hheld⟩ := h.held t rfl
  rw [hpc] at hheld
  obtain ⟨-, hstate, hbalance⟩ := hheld
  refine h.holding (other_of_holder (Or.inl rfl)) (sameElsewhere_locked s t) hpos hlt (pc_goto _)
    ⟨rfl, ?_⟩ trivial h.outcomes_right
  simp only [balance, locked, State.goto, Function.update_self] at hbalance ⊢
  omega

/-- A thread takes the free lock in `tryAcquire`. -/
theorem Inv.compareAndSet (h : Inv .fair s holder) {caller : Caller}
    (hpc : s.pc t = .compareAndSet caller) (hzero : s.state = 0) :
    Inv .fair ((s.write t caller.acquires).goto t (.setOwner caller)) (some t) := by
  obtain rfl := h.free_of_zero hzero
  have hrecorded := h.recorded t
  rw [hpc] at hrecorded
  refine h.holding (other_of_holder (Or.inr rfl))
    ((sameElsewhere_write s t _).trans (sameElsewhere_goto _ t _)) caller.acquires.2.1
    caller.acquires.2.2 (pc_goto _)
    ⟨rfl, (h.free rfl).2, rfl, (h.outside t (Option.some_ne_none t).symm).2⟩ ?_ h.outcomes_right
  have hraised : ((s.write t caller.acquires).goto t (.setOwner caller)).raised t =
      s.raised t + (caller.acquires - s.state) := Function.update_self _ _ _
  change _ = _
  rw [hraised, hrecorded.1, hzero]
  omega

theorem Inv.setOwner (h : Inv sync s holder) {caller : Caller} (hpc : s.pc t = .setOwner caller) :
    Inv sync (leave { s with owner := some t } t caller (sync == .fair)) (some t) := by
  obtain rfl := h.holder_of_inside (t := t) (by rw [hpc]; exact id)
  obtain ⟨hpos, hlt, hheld⟩ := h.held t rfl
  have hrecorded := h.recorded t
  rw [hpc] at hheld hrecorded
  obtain ⟨rfl, -, hstate, hbalance⟩ := hheld
  refine h.leave_true { s with owner := some t } h.outcomes_right
    (other_of_holder (Or.inl rfl)) (fun u _ => ⟨rfl, rfl, rfl, rfl⟩) caller rfl hrecorded ?_ hpos hlt
  change s.balance t + caller.acquires = s.state
  omega

/-- The holder acquires the lock once more. -/
theorem Inv.setState (h : Inv sync s holder) {caller : Caller} {nextc : ℤ}
    (hpc : s.pc t = .setState caller nextc) :
    Inv sync ((s.write t nextc).leave t caller true) (some t) := by
  obtain rfl := h.holder_of_inside (t := t) (by rw [hpc]; exact id)
  obtain ⟨hpos, hlt, hheld⟩ := h.held t rfl
  have hrecorded := h.recorded t
  have hacquires := caller.acquires.2.1
  rw [hpc] at hheld hrecorded
  obtain ⟨howner, hbalance, hnextc, hnext⟩ := hheld
  refine h.leave_true (s.write t nextc) h.outcomes_right (other_of_holder (Or.inl rfl))
    (sameElsewhere_write s t nextc) caller howner ?_ ?_ ?_ hnext
  · have hraised : (s.write t nextc).raised t = s.raised t + (nextc - s.state) :=
      Function.update_self _ _ _
    rw [hraised, hrecorded.1]
    omega
  · change s.balance t + caller.acquires = nextc
    omega
  · change 0 < nextc
    omega

/-- The thread has read a state other than 0, and looks at the owner. -/
theorem Inv.getOwner (h : Inv sync s holder) {caller : Caller} {c : ℤ}
    (hpc : s.pc t = .getOwner caller c) (howner : s.owner = some t) :
    Inv sync (if wrap (c + caller.acquires) < 0 then s.goto t .idle
      else s.goto t (.setState caller (wrap (c + caller.acquires)))) holder := by
  obtain rfl := h.holder_of_owner howner
  obtain ⟨hpos, hlt, hheld⟩ := h.held t rfl
  have hrecorded := h.recorded t
  have hacquires := caller.acquires.2
  rw [hpc] at hheld hrecorded
  obtain ⟨-, hbalance, rfl⟩ := hheld
  by_cases hint : s.state + caller.acquires < 2 ^ 31
  · rw [wrap_of_int (by omega) hint, if_neg (by omega)]
    exact h.holding (other_of_holder (Or.inl rfl)) (sameElsewhere_goto s t _) hpos hlt (pc_goto _)
      ⟨howner, hbalance, rfl, hint⟩ hrecorded h.outcomes_right
  · rw [wrap_of_over (by omega) (by omega), if_pos (by omega)]
    exact h.goto trivial (fun _ => ⟨howner, hbalance⟩) trivial

/-! ## Releasing -/

theorem Inv.releaseGetOwner (h : Inv sync s holder) {c : ℤ} (hpc : s.pc t = .releaseGetOwner c)
    (howner : s.owner = some t) :
    Inv sync (if c = 0 then s.goto t (.releaseClearOwner c) else s.goto t (.releaseSetState c))
      holder := by
  obtain rfl := h.holder_of_owner howner
  obtain ⟨hpos, hlt, hheld⟩ := h.held t rfl
  rw [hpc] at hheld
  obtain ⟨-, hbalance, hc⟩ := hheld
  by_cases hzero : c = 0
  · rw [if_pos hzero]
    exact h.holding (other_of_holder (Or.inl rfl)) (sameElsewhere_goto s t _) hpos hlt (pc_goto _)
      ⟨howner, hbalance, hc, hzero⟩ trivial h.outcomes_right
  · rw [if_neg hzero]
    exact h.holding (other_of_holder (Or.inl rfl)) (sameElsewhere_goto s t _) hpos hlt (pc_goto _)
      ⟨by rw [if_neg hzero]; exact howner, hbalance, hc⟩ trivial h.outcomes_right

theorem Inv.releaseClearOwner (h : Inv sync s holder) {c : ℤ}
    (hpc : s.pc t = .releaseClearOwner c) :
    Inv sync { s.goto t (.releaseSetState c) with owner := none } (some t) := by
  obtain rfl := h.holder_of_inside (t := t) (by rw [hpc]; exact id)
  obtain ⟨hpos, hlt, hheld⟩ := h.held t rfl
  rw [hpc] at hheld
  obtain ⟨-, hbalance, hc, hzero⟩ := hheld
  exact h.holding (other_of_holder (Or.inl rfl)) (sameElsewhere_goto s t _) hpos hlt (pc_goto _)
    ⟨by rw [if_pos hzero], hbalance, hc⟩ trivial h.outcomes_right

theorem Inv.releaseSetState (h : Inv sync s holder) {c : ℤ} (hpc : s.pc t = .releaseSetState c) :
    ∃ holder', Inv sync { s.goto t .idle with
      state := c, releases := Function.update s.releases t (s.releases t + 1) } holder' := by
  obtain rfl := h.holder_of_inside (t := t) (by rw [hpc]; exact id)
  obtain ⟨hpos, hlt, hheld⟩ := h.held t rfl
  rw [hpc] at hheld
  obtain ⟨howner, hbalance, hc⟩ := hheld
  have hsame : SameElsewhere s { s.goto t .idle with
      state := c, releases := Function.update s.releases t (s.releases t + 1) } t := by
    intro u hu
    refine ⟨Function.update_of_ne hu _ _, ?_, rfl, rfl⟩
    simp only [State.goto, balance, Function.update_of_ne hu]
  have hbalance' : balance { s.goto t .idle with
      state := c, releases := Function.update s.releases t (s.releases t + 1) } t = c := by
    simp only [State.goto, balance, Function.update_self] at hbalance ⊢
    omega
  by_cases hzero : c = 0
  · rw [if_pos hzero] at howner
    exact ⟨none, h.freeing hsame hzero howner (pc_goto _) trivial (hbalance'.trans hzero) trivial
      h.outcomes_right⟩
  · rw [if_neg hzero] at howner
    refine ⟨some t, h.holding (other_of_holder (Or.inl rfl)) hsame ?_ ?_ (pc_goto _)
      ⟨howner, hbalance'⟩ trivial h.outcomes_right⟩
    · change 0 < c
      omega
    · change c < 2 ^ 31
      omega

/-! ## Runs -/

/-- The compare-and-set of `nonfairTryAcquire` fails. -/
def Allowed (sync : Sync) (s : State T) (turn : Turn T) : Prop :=
  match sync, s.pc turn.thread with
  | .nonfair, .compareAndSet _ => s.state ≠ 0
  | _, _ => True

instance (sync : Sync) (s : State T) (turn : Turn T) : Decidable (Allowed sync s turn) := by
  unfold Allowed
  split <;> infer_instance

omit [DecidableEq T] in
/-- What is so of the holder at the steps that are not its own. -/
theorem Inv.owned (h : Inv sync s holder) (hpc : s.pc t = pc)
    (hown : HeldAt sync s t pc → s.owner = some t ∧ s.balance t = s.state) :
    holder = some t → s.owner = some t ∧ s.balance t = s.state := by
  intro hholder
  have hheld := (h.held t hholder).2.2
  rw [hpc] at hheld
  exact hown hheld

theorem Inv.step (h : Inv sync s holder) {turn : Turn T} (hallowed : Allowed sync s turn) :
    ∃ holder', Inv sync (s.step sync turn) holder' := by
  obtain ⟨t, call, predecessors⟩ := turn
  have hrecorded := h.recorded t
  cases hpc : s.pc t with
  | idle =>
    have howned := h.owned hpc id
    refine ⟨holder, ?_⟩
    cases call with
    | lock =>
      cases sync with
      | nonfair =>
        simp only [State.step, hpc]
        exact h.goto trivial howned trivial
      | fair =>
        simp only [State.step, hpc]
        exact h.enter .lock howned
    | tryAcquire acquires =>
      simp only [State.step, hpc]
      exact h.enter (.direct acquires) howned
    | release =>
      simp only [State.step, hpc]
      exact h.goto trivial howned trivial
  | lockCompareAndSet =>
    simp only [State.step, hpc]
    by_cases hzero : s.state = 0
    · rw [if_pos hzero]
      exact ⟨some t, h.lockCompareAndSet hzero⟩
    · rw [if_neg hzero]
      exact ⟨holder, h.enter .lock (h.owned hpc id)⟩
  | lockSetOwner =>
    simp only [State.step, hpc]
    exact ⟨some t, h.lockSetOwner hpc⟩
  | getState caller =>
    rw [hpc] at hrecorded
    have howned := h.owned hpc id
    simp only [State.step, hpc]
    refine ⟨holder, ?_⟩
    by_cases hzero : s.state = 0
    · rw [if_pos hzero]
      cases sync <;> exact h.goto trivial howned hrecorded
    · rw [if_neg hzero]
      exact h.goto trivial (fun hholder => ⟨(howned hholder).1, (howned hholder).2, rfl⟩) hrecorded
  | hasQueuedPredecessors caller =>
    rw [hpc] at hrecorded
    have howned := h.owned hpc id
    simp only [State.step, hpc]
    refine ⟨holder, ?_⟩
    cases predecessors with
    | true => exact h.leave_false caller howned hrecorded.1 hrecorded.2
    | false => exact h.goto trivial howned hrecorded
  | compareAndSet caller =>
    rw [hpc] at hrecorded
    simp only [State.step, hpc]
    by_cases hzero : s.state = 0
    · rw [if_pos hzero]
      cases sync with
      | nonfair =>
        simp only [Allowed, hpc] at hallowed
        exact absurd hzero hallowed
      | fair => exact ⟨some t, h.compareAndSet hpc hzero⟩
    · rw [if_neg hzero]
      exact ⟨holder, h.leave_false caller (h.owned hpc id) hrecorded.1 hrecorded.2⟩
  | setOwner caller =>
    simp only [State.step, hpc]
    exact ⟨some t, h.setOwner hpc⟩
  | getOwner caller c =>
    rw [hpc] at hrecorded
    simp only [State.step, hpc]
    refine ⟨holder, ?_⟩
    by_cases howner : s.owner = some t
    · rw [if_pos howner]
      exact h.getOwner hpc howner
    · rw [if_neg howner]
      exact h.leave_false caller (h.owned hpc fun hheld => ⟨hheld.1, hheld.2.1⟩) hrecorded.1
        hrecorded.2
  | setState caller nextc =>
    simp only [State.step, hpc]
    exact ⟨some t, h.setState hpc⟩
  | releaseGetState =>
    have howned := h.owned hpc id
    simp only [State.step, hpc]
    refine ⟨holder, h.goto trivial (fun hholder => ?_) trivial⟩
    obtain ⟨hpos, hlt, -⟩ := h.held t hholder
    exact ⟨(howned hholder).1, (howned hholder).2, wrap_of_int (by omega) (by omega)⟩
  | releaseGetOwner c =>
    simp only [State.step, hpc]
    refine ⟨holder, ?_⟩
    by_cases howner : s.owner = some t
    · rw [if_pos howner]
      exact h.releaseGetOwner hpc howner
    · rw [if_neg howner]
      exact h.goto trivial (h.owned hpc fun hheld => ⟨hheld.1, hheld.2.1⟩) trivial
  | releaseClearOwner c =>
    simp only [State.step, hpc]
    exact ⟨some t, h.releaseClearOwner hpc⟩
  | releaseSetState c =>
    simp only [State.step, hpc]
    exact h.releaseSetState hpc

omit [DecidableEq T] in
theorem inv_start : Inv sync (start : State T) none where
  outside _ _ := ⟨trivial, rfl⟩
  free _ := ⟨rfl, rfl⟩
  held _ hu := by cases hu
  recorded _ := trivial
  outcomes_right _ ho := absurd ho List.not_mem_nil

omit [DecidableEq T] in
/-- With as many releases as acquisitions by each thread nobody holds the lock. -/
theorem Inv.holder_eq_none (h : Inv sync s holder) (hidle : ∀ t, s.pc t = .idle)
    (hzero : ∀ t, s.balance t = 0) : holder = none := by
  cases holder with
  | none => rfl
  | some t =>
    obtain ⟨hpos, -, hheld⟩ := h.held t rfl
    rw [hidle t] at hheld
    have hbalance := hheld.2
    rw [hzero t] at hbalance
    omega

theorem Inv.counted (h : Inv sync s holder) : Counted s where
  outcomes_right := h.outcomes_right
  free_iff hidle := by
    cases holder with
    | none =>
      obtain ⟨hstate, howner⟩ := h.free rfl
      exact iff_of_true hstate howner
    | some t =>
      obtain ⟨hpos, -, hheld⟩ := h.held t rfl
      rw [hidle t] at hheld
      refine iff_of_false (by omega) ?_
      rw [hheld.1]
      exact Option.some_ne_none t
  holdCount_eq t hidle := by
    unfold getHoldCount
    by_cases hholder : holder = some t
    · obtain ⟨-, -, hheld⟩ := h.held t hholder
      rw [hidle] at hheld
      rw [if_pos hheld.1, hheld.2]
    · rw [if_neg fun howner => hholder (h.holder_of_owner howner), (h.outside t hholder).2]
  free_of_balance hidle hzero := h.free (h.holder_eq_none hidle hzero)
  state_range := by
    cases holder with
    | none =>
      have hstate := (h.free rfl).1
      omega
    | some t =>
      obtain ⟨hpos, hlt, -⟩ := h.held t rfl
      exact ⟨Int.le_of_lt hpos, hlt⟩

/-- As long as every compare-and-set of `nonfairTryAcquire` fails, the hold counts are right. -/
theorem counted_of_allowed (sync : Sync) (turns : List (Turn T))
    (h : Along (State.step sync) (Allowed sync) start turns) :
    Throughout (State.step sync) Counted start turns := by
  have hinv : Throughout (State.step sync) (fun s => ∃ holder, Inv sync s holder) start turns := by
    refine throughout_of_along ?_ ⟨none, inv_start⟩ h
    intro s turn hs hallowed
    obtain ⟨holder, hs⟩ := hs
    exact hs.step hallowed
  refine hinv.mono ?_
  intro s hs
  obtain ⟨holder, hs⟩ := hs
  exact hs.counted

/-- Two threads meet while one of them acquires the lock twice and releases it twice. -/
def twice : List (Turn Bool) :=
  let first : Call → Turn Bool := fun call => ⟨true, call, false⟩
  let second : Turn Bool := ⟨false, .lock, false⟩
  List.replicate 3 (first .lock) ++ List.replicate 4 second ++ List.replicate 5 (first .lock) ++
    List.replicate 9 (first .release)

theorem counted_of_allowed_twice :
    Throughout (State.step .nonfair) Counted (start : State Bool) twice :=
  counted_of_allowed .nonfair twice (by decide)

/-- A thread waits for the lock until another one has released it, and then holds it twice. -/
def handedOver : List (Turn Bool) :=
  let first : Call → Turn Bool := fun call => ⟨true, call, false⟩
  let second : Turn Bool := ⟨false, .lock, false⟩
  List.replicate 3 (first .lock) ++ List.replicate 2 second ++
    List.replicate 5 (first .release) ++ List.replicate 6 second

theorem not_counted : ¬ ∀ sync turns,
    Throughout (State.step sync) Counted (start : State Bool) turns := by
  intro h
  have hcount := (h .nonfair handedOver).last.holdCount_eq false (by decide)
  have htwice : (run (State.step .nonfair) start handedOver).getHoldCount false = 2 := by decide
  have honce : (run (State.step .nonfair) start handedOver).balance false = 1 := by decide
  rw [htwice, honce] at hcount
  cases hcount

end State

end BigPlan.Lock
