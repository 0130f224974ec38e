import BigPlan.Lock.QueueKept

/-!
# Signals

A waiter leaves the condition queue for the sync queue because it is signalled or because its wait
is cancelled, and whichever comes first appends its node. `transferForSignal` does not find out: it
appends the node whatever its `waitStatus` is, and leaves the `waitStatus` at `CONDITION`, so that
the waiter does not see that it was signalled. If no wait of a node that a signal takes is
cancelled, and a node has queued behind it by the time that the signal returns, so that its
`waitStatus` was set, the waiter is handed over as it should be.
-/
namespace BigPlan.QueuedSynchronizer

open Lib Lib.Java Lib.Runs Program Node

variable {T : Type} [DecidableEq T]

/-- What `isOnSyncQueue(node)` returns to the thread if nothing else happens. -/
def OnSyncQueue (m : Memory T) (t : T) (node : Ref) : Prop :=
  ∃ steps, evaluate (fun o => (m.perform t ⟨0, false, false, 0⟩ o).2) steps
    (isOnSyncQueue node) = some (.ok true)

namespace State

/-- The wait of the node was cancelled. -/
def Cancelled (s : State T) (node : Ref) : Prop :=
  ∃ c events, s.Has c events ∧ WaitCancelled node events

/-- A signal has taken the node from the condition queue, or its wait was cancelled. -/
def Taken (s : State T) (node : Ref) : Prop :=
  s.Cancelled node ∨ ∃ c events, s.Has c events ∧ c.Signals ∧ Unlinked node events

/-- A signal has appended the node. -/
def Transferred (s : State T) (node : Ref) : Prop :=
  ∃ c events, s.Has c events ∧ c.Signals ∧ Appended node events

/-- The node has become the head. -/
def Reacquired (s : State T) (node : Ref) : Prop :=
  ∃ c events, s.Has c events ∧ ⟨.set .head (some node), ()⟩ ∈ events

/-- A node that was taken from the condition queue is appended to the sync queue at most once, and
when the wait or the signal that took it is over, it was; a node that a signal has transferred is
on the sync queue until its thread has reacquired; a wait that was cancelled is not signalled as
well; and `signal` transfers a node, or goes on until there is no waiter. -/
structure HandedOver (s : State T) : Prop where
  at_most_once : ∀ node, s.Taken node → s.memory.appended.count node ≤ 1
  once_cancelled : ∀ d ∈ s.completed, ∀ node, WaitCancelled node d.events →
    s.memory.appended.count node = 1
  once_signalled : ∀ d ∈ s.completed, ∀ node, d.call.Signals → Unlinked node d.events →
    ¬ s.Cancelled node → s.memory.appended.count node = 1
  on_sync_queue : ∀ d ∈ s.completed, ∀ node, d.call.Signals → d.result = .ok .void →
    Appended node d.events → ¬ s.Reacquired node → ∀ t, OnSyncQueue s.memory t node
  not_transferred : ∀ node, s.Cancelled node → ¬ s.Transferred node
  goes_on : ∀ d ∈ s.completed, d.call = .signal → d.result = .ok .void →
    (∃ node, Appended node d.events) ∨ lastFirstWaiter d.events = some none

/-- Only the holder uses the condition: the lock is released and acquired again for a waiter, and
one thread at a time is told that it holds the lock. -/
def Held (s : State T) : Turn T → Prop
  | .interrupt _ => True
  | .step t _ input => ∀ r o next, s.running t = some r → r.code = .perform o next →
    (∀ arg, r.call.Awaits → (o = .tryAcquire arg → input.throws = false) ∧
      (o = .tryRelease arg → input.throws = false ∧ input.boolean = true)) ∧
    (o = .isHeldExclusively → input.throws = false → input.boolean = true →
      ∀ u c events, s.InCall u c events → Granted events → u = t)

/-- A signal takes only a node that waits and is not on the sync queue; the wait of a node that a
signal has taken is not cancelled; and when a signal returns, the status of the nodes that it has
taken has changed. -/
def Noticed (s : State T) : Turn T → Prop
  | .interrupt _ => True
  | .step t _ _ => ∀ r, s.running t = some r →
    (∀ node next, r.call.Signals → r.code = .perform (.set (.nextWaiter node) none) next →
      s.memory.waitStatus node = CONDITION ∧ node ∉ s.memory.appended) ∧
    (∀ node next, r.code = .perform (.compareAndSetWaitStatus node CONDITION 0 .cancelWait) next →
      s.TakenBySignal node → s.memory.waitStatus node ≠ CONDITION) ∧
    (∀ node result, r.call.Signals → r.code = .ret result → Unlinked node r.events →
      s.memory.waitStatus node ≠ CONDITION)

variable {s : State T} {turn : Turn T}

/-! ## Runs -/

omit [DecidableEq T] in
theorem not_inCall_start {t : T} {c : Call} {events : Events T} :
    ¬ (start : State T).InCall t c events := by
  rintro ⟨r, hrun, -⟩
  cases hrun

omit [DecidableEq T] in
theorem not_logged_start {K : Call → Prop} {e : Event (Op T) (Op.Answer T)} :
    ¬ (start : State T).Logged K e := by
  rintro ⟨c, events, hhas, -⟩
  exact not_has_start hhas

omit [DecidableEq T] in
theorem not_headed_start {n : Ref} : ¬ (start : State T).Headed n := by
  rintro (hlogged | hlogged)
  · exact not_logged_start hlogged
  · exact not_logged_start hlogged

omit [DecidableEq T] in
theorem orderly_start : (start : State T).Orderly where
  unbroken h := absurd h not_has_start
  unfailed h := absurd h not_has_start
  joined h := absurd h not_has_start
  ahead h := absurd h not_has_start
  read_head h := absurd h not_logged_start
  positive h := absurd h not_has_start
  left h := absurd h not_has_start
  appended h := absurd h not_has_start
  linked := LazyQueue.linked_nil fun _ => not_headed_start
  head h := by cases h
  tail _ := rfl
  next h := by cases h
  prev h := by cases h
  first _ := List.not_mem_nil
  nodup := List.nodup_nil
  appended_lt h := absurd h List.not_mem_nil
  headed_lt h := absurd h not_headed_start
  gone_lt h := absurd h (Int.lt_irrefl 0)
  condition_lt h := by cases h
  made_lt h := absurd h not_inCall_start
  made_once h := absurd h not_inCall_start
  left_own h := absurd h not_inCall_start
  head_own h := absurd h not_inCall_start
  held h := absurd h not_inCall_start
  held_status h := absurd h not_inCall_start
  held_once h := absurd h not_inCall_start
  prepared h := absurd h not_inCall_start
  dummy h := absurd h not_inCall_start
  dummy_own h := absurd h not_inCall_start
  started h := absurd h not_inCall_start
  started_read h := absurd h not_inCall_start
  started_once h := absurd h not_inCall_start
  settled _ h := absurd h List.not_mem_nil
  born h := absurd h not_inCall_start
  taken h := absurd h not_logged_start
  taken_own h := absurd h not_logged_start
  cancelled h := absurd h not_has_start
  waiting h := by cases h
  transferred h := absurd h not_has_start
  granted h := absurd h not_has_start
  granted_once h := absurd h not_inCall_start
  held_or h := absurd h not_has_start
  noticed _ h := absurd h List.not_mem_nil
  keeps := keeps_start

theorem Orderly.proceeds (h : s.Orderly) {t : T} {call : Call} {input : Input} {r : Running T}
    {o : Op T} {next : o.Answer T → Interruptible T Value} (hrun : s.running t = some r)
    (hop : r.code = .perform o next) (hheld : s.Held (.step t call input))
    (hnoticed : s.Noticed (.step t call input))
    (p : s.Performs (s.step (.step t call input)) t r.call r.events input o) :
    s.Proceeds (s.step (.step t call input)) t r.call r.events input o where
  toPerforms := p
  running := ⟨r, hrun, rfl, rfl⟩
  allowed := (h.keeps.safe hrun hop).resolve_left (h.unbroken (.running hrun))
  succeeds hc hfailed := by
    obtain ⟨hcalls, -⟩ := hheld r o next hrun hop
    obtain ⟨arg, hmem | ⟨a, ha, hmem⟩⟩ := hfailed
    · obtain ⟨rfl, hanswer⟩ := performed (List.mem_singleton.mp hmem)
      have hanswer : none = if input.throws then none else some input.boolean := hanswer
      rw [(hcalls arg hc).1 rfl] at hanswer
      cases hanswer
    · obtain ⟨rfl, hanswer⟩ := performed (List.mem_singleton.mp hmem)
      have hanswer : a = if input.throws then none else some input.boolean := hanswer
      obtain ⟨hthrows, hboolean⟩ := (hcalls arg hc).2 rfl
      rw [hthrows, hboolean] at hanswer
      exact ha hanswer
  holder hgranted := by
    obtain ⟨rfl, hanswer⟩ := performed (List.mem_singleton.mp hgranted)
    have hanswer : some true = if input.throws then none else some input.boolean := hanswer
    cases hthrows : input.throws with
    | true =>
      rw [hthrows] at hanswer
      cases hanswer
    | false =>
      rw [hthrows] at hanswer
      exact (hheld r _ next hrun hop).2 rfl hthrows (Option.some.inj hanswer).symm
  taking hc node ho := by
    subst ho
    exact (hnoticed r hrun).1 node next hc hop
  cancelling node ho := by
    subst ho
    exact (hnoticed r hrun).2.1 node next hop

theorem Orderly.step (h : s.Orderly) (hheld : s.Held turn) (hnoticed : s.Noticed turn) :
    (s.step turn).Orderly := by
  have hkeeps := h.keeps.step code_does turn
  rcases s.rests_or_performs turn with ⟨p, hcompleted⟩ |
    ⟨t, call, input, r, o, next, rfl, hrun, hop, p⟩
  · refine ⟨p.witnessed h, p.placed h, p.parted h, p.signed h fun d hd => ?_, hkeeps⟩
    rcases hcompleted d hd with hold | ⟨t, call, input, r, rfl, hrun, hret, hcall, hevents⟩
    · exact ⟨h.settled d hold, h.noticed d hold⟩
    · rw [hcall, hevents]
      have hgood := h.keeps.running t r hrun
      rw [hret] at hgood
      refine ⟨hgood.resolve_left (h.unbroken (.running hrun)), fun hc n hunlinked => ?_⟩
      exact (hnoticed r hrun).2.2 n d.result hc hret hunlinked
  · have p := h.proceeds hrun hop hheld hnoticed p
    exact ⟨p.witnessed h, p.placed h, p.parted h, p.signed h, hkeeps⟩

/-! ## What is found from the tail -/

section OnSyncQueue

variable {m : Memory T} {t : T} {node : Ref}

/-- The method returns the value if nothing else happens. -/
def Reads (m : Memory T) (t : T) {α : Type} (method : Method T α) (a : α) : Prop :=
  Returns (fun (u : Unit) o => (u, (m.perform t ⟨0, false, false, 0⟩ o).2)) () method () (.ok a)

theorem findNodeFromTail_reads {x : Ref} (htail : m.field .tail = some x)
    (h : LazyQueue.Leads (fun n => m.field (.prev n)) x node) :
    Reads m t (findNodeFromTail node) true := by
  refine returns_then returns_lift ?_
  show Returns _ () (forever _ (m.field .tail)) () _
  rw [htail]
  clear htail
  induction h with
  | @refl node =>
    apply returns_forever_inr
    show Returns _ () (if node = node then pure (.inr true) else _ : Method T (Option Ref ⊕ Bool)) _ _
    rw [if_pos rfl]
    exact returns_pure
  | @step x p node hne hprev _ ih =>
    refine returns_forever_inl (y := some p) ?_ ih
    show Returns _ () (if x = node then pure (.inr true) else _ : Method T (Option Ref ⊕ Bool)) _ _
    rw [if_neg hne, ← hprev]
    exact returns_then returns_lift returns_pure

theorem onSyncQueue_of_leads {x : Ref} (hws : m.waitStatus node ≠ CONDITION)
    (hprev : m.field (.prev node) ≠ none) (htail : m.field .tail = some x)
    (h : LazyQueue.Leads (fun n => m.field (.prev n)) x node) : OnSyncQueue m t node := by
  suffices hreads : Reads m t (isOnSyncQueue node) true from evaluate_of_returns hreads
  refine returns_then returns_lift ?_
  show Returns _ () (if m.waitStatus node = CONDITION then pure false else _ : Method T Bool) _ _
  rw [if_neg hws]
  refine returns_then returns_lift ?_
  show Returns _ () (if m.field (.prev node) = none then pure false else _ : Method T Bool) _ _
  rw [if_neg hprev]
  refine returns_then returns_lift ?_
  show Returns _ () (if m.field (.next node) ≠ none then pure true else _ : Method T Bool) _ _
  split
  · exact returns_pure
  · exact findNodeFromTail_reads htail h

omit [DecidableEq T] in
/-- A node that a signal has transferred waits in the queue until it is the head. -/
theorem Orderly.waits (h : s.Orderly) {c : Call} {events : Events T} (hhas : s.Has c events)
    (hc : c.Signals) (happended : Appended node events) (hnot : ¬ s.Reacquired node) :
    s.queue.Waits node := by
  have hmem := h.appended hhas happended
  have htaken : s.TakenBySignal node := ⟨c, events, hhas, hc, h.transferred hhas hc happended⟩
  refine ⟨hmem, ?_, fun hgone => absurd hgone (Int.not_lt.mpr (h.taken htaken).2)⟩
  rintro (hlogged | hlogged)
  · obtain ⟨c', events', hhas', -, hhead⟩ := hlogged
    exact hnot ⟨c', events', hhas', hhead⟩
  · exact h.first hlogged hmem

theorem Orderly.onSyncQueue (h : s.Orderly) {d : Completed T} (hd : d ∈ s.completed)
    (hc : d.call.Signals) (happended : Appended node d.events) (hnot : ¬ s.Reacquired node) (t : T) :
    OnSyncQueue s.memory t node := by
  have hwaits := h.waits (.completed hd) hc happended hnot
  obtain ⟨x, htail, hleads⟩ := h.linked.found hwaits
  have hunlinked := h.transferred (.completed hd) hc happended
  exact onSyncQueue_of_leads (h.noticed d hd hc node hunlinked) (h.linked.prev_ne_none hwaits)
    htail hleads

end OnSyncQueue

/-! ## Handing over -/

omit [DecidableEq T] in
theorem Orderly.count_eq_one (h : s.Orderly) {node : Ref} (hmem : node ∈ s.memory.appended) :
    s.memory.appended.count node = 1 := List.count_eq_one_of_mem h.nodup hmem

theorem Orderly.handedOver (h : s.Orderly) : s.HandedOver where
  at_most_once node _ := List.nodup_iff_count_le_one.mp h.nodup node
  once_cancelled d hd node hcancelled := by
    apply h.count_eq_one
    rcases h.held_or (.completed hd) hcancelled with hholds | happended
    · exact absurd hholds ((h.settled d hd).1 node)
    · exact h.appended (.completed hd) happended
  once_signalled d hd node hc hunlinked _ := by
    apply h.count_eq_one
    rcases Unlinked.holds_or hunlinked hc with hholds | happended
    · exact absurd hholds ((h.settled d hd).1 node)
    · exact h.appended (.completed hd) happended
  on_sync_queue d hd node hc _ happended hnot t := h.onSyncQueue hd hc happended hnot t
  not_transferred node hcancelled htransferred := by
    obtain ⟨c, events, hhas, hwait⟩ := hcancelled
    obtain ⟨c', events', hhas', hc, happended⟩ := htransferred
    exact (h.cancelled hhas hwait).2.2 ⟨c', events', hhas', hc, h.transferred hhas' hc happended⟩
  goes_on d hd hc hresult := (h.settled d hd).2 (hc ▸ trivial) hresult

theorem handedOver_of_noticed (turns : List (Turn T))
    (h : Along step (fun s turn => s.Held turn ∧ s.Noticed turn) start turns) :
    Throughout step HandedOver start turns :=
  (throughout_of_along (fun _ _ horderly hturn => horderly.step hturn.1 hturn.2) orderly_start
    h).mono fun _ horderly => horderly.handedOver

/-! ### A signal that is noticed -/

def isSignal : Call → Bool
  | .signal | .signalAll => true
  | _ => false

theorem isSignal_of_signals {c : Call} (h : c.Signals) : isSignal c = true := by
  cases c with
  | signal | signalAll => rfl
  | _ => exact h.elim

def isGranted (e : Event (Op T) (Op.Answer T)) : Bool :=
  match e with
  | ⟨.isHeldExclusively, some true⟩ => true
  | _ => false

/-- The event takes no node that still has the status of a waiter. -/
def isNoticed (m : Memory T) (e : Event (Op T) (Op.Answer T)) : Bool :=
  match e with
  | ⟨.set (.nextWaiter node) none, _⟩ => decide (m.waitStatus node ≠ CONDITION)
  | _ => true

/-- Enough for `Held` and `Noticed`: the subclass does not throw, and no signal has been called when
a wait is cancelled. -/
def noted (s : State (Fin 3)) : Turn (Fin 3) → Bool
  | .interrupt _ => true
  | .step t _ input =>
    match s.running t with
    | none => true
    | some ⟨call, code, events, _⟩ =>
      !input.throws &&
      match code with
      | .perform (.tryRelease _) _ => input.boolean
      | .perform .isHeldExclusively _ =>
        (List.finRange 3).all fun u => u = t || (s.running u).all fun r => !r.events.any isGranted
      | .perform (.set (.nextWaiter node) none) _ => !isSignal call ||
          decide (s.memory.waitStatus node = CONDITION ∧ node ∉ s.memory.appended)
      | .perform (.compareAndSetWaitStatus _ _ _ .cancelWait) _ =>
        ((List.finRange 3).all fun u => (s.running u).all fun r => !isSignal r.call) &&
          s.completed.all fun d => !isSignal d.call
      | .ret _ => !isSignal call || events.all (isNoticed s.memory)
      | _ => true

theorem held_of_noted {s : State (Fin 3)} {turn : Turn (Fin 3)} (h : s.noted turn = true) :
    s.Held turn := by
  cases turn with
  | interrupt t => trivial
  | step t call input =>
    rintro ⟨c, code, events, interrupted⟩ o next hrun hop
    cases hop
    simp only [noted, hrun, Bool.and_eq_true] at h
    obtain ⟨hthrows, h⟩ := h
    have hthrows : input.throws = false := (Bool.not_eq_true' _).mp hthrows
    refine ⟨fun arg _ => ⟨fun _ => hthrows, ?_⟩, ?_⟩
    · rintro rfl
      exact ⟨hthrows, h⟩
    · rintro rfl - - u c' events' ⟨r, hr, -, rfl⟩ hgranted
      have hu := List.all_eq_true.mp h u (List.mem_finRange u)
      rcases Bool.or_eq_true_iff.mp hu with hu | hu
      · exact of_decide_eq_true hu
      · rw [hr, Option.all_some, Bool.not_eq_true'] at hu
        have hany : r.events.any isGranted = true := List.any_eq_true.mpr ⟨_, hgranted, rfl⟩
        exact absurd (hany.symm.trans hu) (by decide)

theorem noticed_of_noted {s : State (Fin 3)} {turn : Turn (Fin 3)} (h : s.noted turn = true) :
    s.Noticed turn := by
  cases turn with
  | interrupt t => trivial
  | step t call input =>
    rintro ⟨c, code, events, interrupted⟩ hrun
    simp only [noted, hrun, Bool.and_eq_true] at h
    obtain ⟨-, h⟩ := h
    refine ⟨fun node next hc hop => ?_, fun node next hop htaken => ?_,
      fun node result hc hop hunlinked => ?_⟩
    · cases hop
      have h : (!isSignal c || decide (s.memory.waitStatus node = CONDITION ∧
        node ∉ s.memory.appended)) = true := h
      rw [isSignal_of_signals hc] at h
      exact of_decide_eq_true h
    · cases hop
      obtain ⟨hrunning, hcompleted⟩ := Bool.and_eq_true_iff.mp h
      obtain ⟨c', events', hhas, hc', -⟩ := htaken
      have hsignal := isSignal_of_signals hc'
      cases hhas with
      | @running u r hr =>
        have hu := List.all_eq_true.mp hrunning u (List.mem_finRange u)
        rw [hr, Option.all_some, hsignal] at hu
        exact absurd hu (by decide)
      | completed hd =>
        have hd := List.all_eq_true.mp hcompleted _ hd
        rw [hsignal] at hd
        exact absurd hd (by decide)
    · cases hop
      have h : (!isSignal c || events.all (isNoticed s.memory)) = true := h
      rw [isSignal_of_signals hc] at h
      exact of_decide_eq_true (List.all_eq_true.mp h _ hunlinked)

/-- Two threads wait, and the first one is interrupted: its node goes to the sync queue, it acquires
and releases. A third thread acquires and signals the second waiter, and before the signal returns
the first thread has queued behind the node of this waiter. -/
def signalledSecond : List (Turn (Fin 3)) :=
  let yes : Input := ⟨1, true, false, 0⟩
  let no : Input := ⟨1, false, false, 0⟩
  List.replicate 3 (.step 0 (.acquire 1) yes) ++ List.replicate 11 (.step 0 .await yes) ++
    List.replicate 3 (.step 1 (.acquire 1) yes) ++ List.replicate 12 (.step 1 .await yes) ++
    .interrupt 0 :: List.replicate 34 (.step 0 .await yes) ++
    List.replicate 5 (.step 0 (.release 1) yes) ++ List.replicate 3 (.step 2 (.acquire 1) yes) ++
    List.replicate 15 (.step 2 .signal yes) ++ List.replicate 16 (.step 0 (.acquire 1) no) ++
    .step 2 .signal yes :: List.replicate 11 (.step 2 (.release 1) yes) ++
    List.replicate 16 (.step 1 .await yes)

theorem handedOver_of_noticed_second : Throughout step HandedOver start signalledSecond ∧
    (run step start signalledSecond).memory.appended = [4, 2, 1] ∧
    (run step start signalledSecond).completed.map (fun d => (d.thread, d.call, d.result)) =
      [(1, .await, .ok .void), (2, .release 1, .ok (.boolean true)), (2, .signal, .ok .void),
        (2, .acquire 1, .ok .void), (0, .release 1, .ok (.boolean true)),
        (0, .await, .error .interruptedException), (1, .acquire 1, .ok .void),
        (0, .acquire 1, .ok .void)] := by
  have hnoted : Along step (fun s turn => s.noted turn = true) start signalledSecond := by
    decide +kernel
  refine ⟨handedOver_of_noticed _ (hnoted.mono fun _ _ h => ?_), by decide +kernel, by decide +kernel⟩
  exact ⟨held_of_noted h, noticed_of_noted h⟩

/-! ### A signal that is not -/

section Unnoticed

variable {m : Memory T} {t : T}

/-- A waiter whose `waitStatus` is still `CONDITION` goes on waiting. -/
theorem not_onSyncQueue {node : Ref} (h : m.waitStatus node = CONDITION) :
    ¬ OnSyncQueue m t node := by
  intro hon
  obtain ⟨steps, hsteps⟩ := hon
  cases steps with
  | zero => cases hsteps
  | succ steps =>
    have hfalse : evaluate (fun o => (m.perform t ⟨0, false, false, 0⟩ o).2) steps
        (if m.waitStatus node = CONDITION then pure false else do
          let prev ← get (.prev node)
          if prev = none then return false
          else
            let next ← get (.next node)
            if next ≠ none then return true
            else findNodeFromTail node : Method T Bool) = some (.ok true) := hsteps
    rw [if_pos h] at hfalse
    cases steps with
    | zero => cases hfalse
    | succ steps => cases hfalse

/-- One thread has acquired and waits; the other one acquires and signals. -/
def signalled : List (Turn Bool) :=
  let input : Input := ⟨1, true, false, 0⟩
  List.replicate 3 (.step false (.acquire 1) input) ++
    List.replicate 11 (.step false .await input) ++
    List.replicate 3 (.step true (.acquire 1) input) ++
    List.replicate 22 (.step true .signal input)

def appendsNode (node : Ref) (e : Event (Op T) (Op.Answer T)) : Bool :=
  match e with
  | ⟨.compareAndSet _ _ (some n) .append, true⟩ => n = node
  | _ => false

def isHead (node : Ref) (e : Event (Op T) (Op.Answer T)) : Bool :=
  match e with
  | ⟨.set .head (some n), _⟩ => n = node
  | _ => false

omit [DecidableEq T] in
theorem appended_of_any {node : Ref} {events : Events T}
    (h : events.any (appendsNode node) = true) : Appended node events := by
  obtain ⟨e, he, happend⟩ := List.any_eq_true.mp h
  unfold appendsNode at happend
  split at happend
  · cases of_decide_eq_true happend
    exact ⟨_, _, he⟩
  · cases happend

/-- The waiter was signalled, but it does not leave its loop. -/
theorem not_handedOver : ¬ Throughout step HandedOver start signalled := by
  intro h
  have hchecks : (run step start signalled).completed.any (fun d =>
        d.call = .signal ∧ d.result = .ok .void ∧ d.events.any (appendsNode 1)) = true ∧
      (∀ t, ((run step start signalled).running t).all
        (fun r => !r.events.any (isHead 1)) = true) ∧
      (run step start signalled).completed.all (fun d => !d.events.any (isHead 1)) = true ∧
      (run step start signalled).memory.waitStatus 1 = CONDITION := by
    decide +kernel
  obtain ⟨hsignal, hrunning, hcompleted, hcondition⟩ := hchecks
  obtain ⟨d, hd, hcheck⟩ := List.any_eq_true.mp hsignal
  obtain ⟨hcall, hresult, hevents⟩ := of_decide_eq_true hcheck
  have hnot : ¬ Reacquired (run step start signalled) 1 := by
    intro hre
    obtain ⟨c, events, hhas, hmem⟩ := hre
    have hany : events.any (isHead 1) = true := List.any_eq_true.mpr ⟨_, hmem, rfl⟩
    cases hhas with
    | @running t r hrun =>
      have hall := hrunning t
      rw [hrun, Option.all_some, hany] at hall
      exact Bool.false_ne_true hall
    | completed hd =>
      have hall := List.all_eq_true.mp hcompleted _ hd
      rw [hany] at hall
      exact Bool.false_ne_true hall
  exact not_onSyncQueue hcondition (h.last.on_sync_queue d hd 1 (hcall ▸ trivial) hresult
    (appended_of_any hevents) hnot false)

end Unnoticed

end State

end BigPlan.QueuedSynchronizer
