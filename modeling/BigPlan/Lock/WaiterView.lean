import BigPlan.Lock.Conditions

/-!
# Looking at the waiters

The methods of a condition that tell, to a thread that holds the lock, who waits on it: the nodes of
its queue whose `waitStatus` is still `CONDITION`. They say so after any calls.
-/
namespace BigPlan.QueuedSynchronizer

open Lib Lib.Chain Program Node

variable {T : Type}

/-! ## The methods -/

/-- `if (!isHeldExclusively()) { throw new IllegalMonitorStateException(); }`, and the rest. -/
def whileHeld {α : Type} (rest : Method T α) : Method T α := do
  if ← isHeldExclusively then rest else throw .illegalMonitorState

/-- A turn of the loop in `hasWaiters`. -/
def hasWaitersTurn : Option Ref → Method T (Option Ref ⊕ Bool)
  | none => return .inr false
  | some w => do
    let ws ← getWaitStatus w
    if ws = CONDITION then return .inr true
    else do
      let nextWaiter ← get (.nextWaiter w)
      return .inl nextWaiter

def hasWaiters : Method T Bool := whileHeld do
  let w ← get .firstWaiter
  forever hasWaitersTurn w

/-- `for (Node w = firstWaiter; w != null; w = w.nextWaiter)`, with what is done with each node
whose `waitStatus` is `CONDITION`. -/
def forWaiters {β : Type} (turn : Ref → β → Method T β) (init : β) : Method T β := whileHeld do
  let w ← get .firstWaiter
  forever (fun (w, b) =>
    match w with
    | none => return .inr b
    | some w => do
      let ws ← getWaitStatus w
      let b ← (if ws = CONDITION then turn w b else pure b)
      let nextWaiter ← get (.nextWaiter w)
      return .inl (nextWaiter, b)) (w, init)

/-- An `int` in the source, which is the same: a node counted belongs to a thread that waits, and
there are fewer than 2^31 threads. -/
def getWaitQueueLength : Method T ℕ := forWaiters (fun _ n => return n + 1) 0

def getWaitingThreads : Method T (List T) := forWaiters addThread []

/-! ## What they tell -/

variable [DecidableEq T] {t : T} {input : Input} {m : Memory T} {l : List Ref}

theorem whileHeld_runs {α : Type} {rest : Method T α} {a : α} (hthrows : input.throws = false)
    (hheld : input.boolean = true) (h : Tells t input m rest a) :
    Tells t input m (whileHeld rest) a := by
  refine returns_then (isHeldExclusively_runs hthrows) ?_
  rw [hheld]
  exact h

theorem tells_forWaiters {β : Type} {turn : Ref → β → Method T β} {f : β → Ref → β}
    (hthrows : input.throws = false) (hheld : input.boolean = true) (h : m.Queue l)
    (hturn : ∀ a b, Tells t input m (turn a b) (f b a)) (init : β) :
    Tells t input m (forWaiters turn init) ((m.waiting l).foldl f init) := by
  rw [Memory.waiting, List.foldl_filter]
  refine whileHeld_runs hthrows hheld (returns_then returns_lift ?_)
  refine returns_forever_foldl (g := id) h.leads (fun b => returns_pure) (fun a _ b => ?_) init
  refine returns_then returns_lift ?_
  change Returns _ m ((if m.waitStatus a = CONDITION then turn a b else pure b) >>= _ :
    Method T _) _ _
  by_cases hwaits : m.waitStatus a = CONDITION
  · rw [if_pos hwaits, if_pos (by simpa using hwaits)]
    exact returns_then (hturn a b) (returns_then returns_lift returns_pure)
  · rw [if_neg hwaits, if_neg (by simpa using hwaits)]
    exact returns_then returns_pure (returns_then returns_lift returns_pure)

theorem tells_getWaitQueueLength (hthrows : input.throws = false) (hheld : input.boolean = true)
    (h : m.Queue l) : Tells t input m getWaitQueueLength (m.waiting l).length := by
  have hcount (n : ℕ) : (m.waiting l).foldl (fun n _ => n + 1) n = n + (m.waiting l).length := by
    induction m.waiting l generalizing n with
    | nil => rfl
    | cons a l ih =>
      rw [List.foldl_cons, ih, List.length_cons]
      omega
  have hlength := hcount 0
  rw [Nat.zero_add] at hlength
  rw [← hlength]
  exact tells_forWaiters hthrows hheld h (fun a b => returns_pure) 0

theorem tells_getWaitingThreads (hthrows : input.throws = false) (hheld : input.boolean = true)
    (h : m.Queue l) : Tells t input m getWaitingThreads (m.threads (m.waiting l)) := by
  rw [← foldl_addThread]
  exact tells_forWaiters hthrows hheld h tells_addThread []

theorem tells_hasWaiters (hthrows : input.throws = false) (hheld : input.boolean = true)
    (h : m.Queue l) : Tells t input m hasWaiters (m.waiting l ≠ []) := by
  have hfound : ((l.find? fun a => m.waitStatus a = CONDITION).elim false fun _ => true) =
      decide (m.waiting l ≠ []) := by
    cases hfind : l.find? fun a => decide (m.waitStatus a = CONDITION) with
    | none =>
      have hnone := List.find?_eq_none.mp hfind
      have hnil : m.waiting l = [] := List.filter_eq_nil_iff.mpr hnone
      simp [hnil]
    | some a =>
      have hwaits := List.find?_some hfind
      have ha : a ∈ m.waiting l := List.mem_filter.mpr ⟨List.mem_of_find?_eq_some hfind, hwaits⟩
      have hne : m.waiting l ≠ [] := List.ne_nil_of_mem ha
      simp [hne]
  rw [← hfound]
  refine whileHeld_runs hthrows hheld (returns_then returns_lift ?_)
  refine returns_forever_find h.leads returns_pure (fun a _ ha => ?_) fun a _ ha => ?_
  · refine returns_then returns_lift ?_
    change Returns _ m (if m.waitStatus a = CONDITION then _ else _) _ _
    rw [if_pos ha]
    exact returns_pure
  · refine returns_then returns_lift ?_
    change Returns _ m (if m.waitStatus a = CONDITION then _ else _) _ _
    rw [if_neg ha]
    exact returns_then returns_lift returns_pure

theorem whileHeld_throws {α : Type} {rest : Method T α} (hthrows : input.throws = false)
    (hheld : input.boolean = false) :
    Returns (fun m o => m.perform t input o) m (whileHeld rest) m
      (.error .illegalMonitorState) := by
  refine returns_then (isHeldExclusively_runs hthrows) ?_
  rw [hheld]
  exact ⟨0, rfl⟩

/-- A thread that holds the lock is told the same waiters by all methods, another one none. -/
theorem Reached.tells_waiters (h : Reached m) (t : T) (hthrows : input.throws = false) :
    (input.boolean = true → ∃ l, m.Queue l ∧
      Tells t input m hasWaiters (m.waiting l ≠ []) ∧
      Tells t input m getWaitQueueLength (m.waiting l).length ∧
      Tells t input m getWaitingThreads (m.threads (m.waiting l))) ∧
    (input.boolean = false →
      Returns (fun m o => m.perform t input o) m hasWaiters m (.error .illegalMonitorState) ∧
      Returns (fun m o => m.perform t input o) m getWaitQueueLength m
        (.error .illegalMonitorState) ∧
      Returns (fun m o => m.perform t input o) m getWaitingThreads m
        (.error .illegalMonitorState)) := by
  obtain ⟨l, hl⟩ := h.conditioned
  refine ⟨fun hheld => ⟨l, hl.queue, ?_⟩, fun hheld => ?_⟩
  · exact ⟨tells_hasWaiters hthrows hheld hl.queue,
      tells_getWaitQueueLength hthrows hheld hl.queue,
      tells_getWaitingThreads hthrows hheld hl.queue⟩
  · exact ⟨whileHeld_throws hthrows hheld, whileHeld_throws hthrows hheld,
      whileHeld_throws hthrows hheld⟩

/-- Of two waiters the one that has given up is not told. -/
theorem Reached.tells_waiters_gaveUp : ∃ m : Memory Bool, m.Queue [1, 2] ∧
    Tells true ⟨0, true, false, 0⟩ m hasWaiters true ∧
    Tells true ⟨0, true, false, 0⟩ m getWaitQueueLength 1 ∧
    Tells true ⟨0, true, false, 0⟩ m getWaitingThreads [true] := by
  let holds : Input := ⟨0, true, false, 0⟩
  obtain ⟨m, hchained, hqueue, -, hwaiting, hthreads⟩ := exists_gaveUp
  obtain ⟨l, hl, hhas, hlength, hlist⟩ :=
    (Reached.tells_waiters hchained.reached true (show holds.throws = false from rfl)).1 rfl
  obtain rfl := hl.leads.unique hqueue.leads
  rw [hwaiting] at hhas hlength hlist
  rw [hthreads] at hlist
  exact ⟨m, hqueue, hhas, hlength, hlist⟩

end BigPlan.QueuedSynchronizer
