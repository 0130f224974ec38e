import BigPlan.Lock.HandOver

/-!
# Waiting and signalling, call after call

Threads make calls that use the condition and the queue of the synchronizer, each of which runs to
its end before the next one. The condition stays a chain throughout, whatever becomes of the queue.
The queue stays one from the tail to the head as long as no call appends a node that is on it, which
a signal does to a waiter that has given up, and a waiter that gives up does to itself after a
signal.
-/
namespace BigPlan.QueuedSynchronizer

open Lib Lib.Chain Program Node

variable {T : Type} {m m' : Memory T} {l s : List Ref} {a p node : Ref}

/-- A call, or a `waitStatus` that some other method writes. -/
inductive Act where
  | addConditionWaiter
  | unlinkCancelledWaiters
  | signal
  | signalAll
  | transferAfterCancelledWait (node : Ref)
  | addWaiter (mode : Option Ref)
  | attempt (node : Ref) (arg : ℤ)
  | setWaitStatus (node : Ref) (ws : ℤ)
  deriving DecidableEq

namespace Act

/-- What the call runs. -/
def method (t : T) : Act → Method T Unit
  | addConditionWaiter => do
    let _ ← QueuedSynchronizer.addConditionWaiter t
    return ()
  | unlinkCancelledWaiters => QueuedSynchronizer.unlinkCancelledWaiters
  | signal => QueuedSynchronizer.signal
  | signalAll => QueuedSynchronizer.signalAll
  | transferAfterCancelledWait node => do
    let _ ← QueuedSynchronizer.transferAfterCancelledWait node
    return ()
  | addWaiter mode => do
    let _ ← QueuedSynchronizer.addWaiter t mode
    return ()
  | attempt node arg => do
    let p ← predecessor node
    let _ ← QueuedSynchronizer.attempt p node arg
    return ()
  | setWaitStatus node ws => QueuedSynchronizer.setWaitStatus node ws

/-- The nodes that the call appends to the queue, the last one first. -/
def appends (m : Memory T) (l : List Ref) : Act → List Ref
  | signal => l.head?.toList
  | signalAll => l.reverse
  | transferAfterCancelledWait node => if m.waitStatus node = CONDITION then [node] else []
  | addWaiter _ => [m.fresh]
  | _ => []

/-- What the call leaves of the condition. -/
def Leaves (m : Memory T) (l l' : List Ref) : Act → Prop
  | addConditionWaiter =>
    ∃ kept, l' = kept ++ [m.fresh] ∧ kept.Sublist l ∧ m.waiting kept = m.waiting l
  | unlinkCancelledWaiters => l' = m.waiting l
  | signal => l' = l.tail
  | signalAll => l' = []
  | _ => l' = l

/-- The node that is put on an empty queue before the first one. -/
def sentinel (m : Memory T) : Act → Ref
  | addWaiter _ => m.fresh + 1
  | _ => m.fresh

/-- What the call makes of the queue, unless it appends a node that is on it. -/
def Lines (m : Memory T) (l s s' : List Ref) : Act → Prop
  | attempt node _ => s' = s ∨ ∃ xs p, s = xs ++ [node, p] ∧ s' = xs ++ [node]
  | act =>
    s' = if act.appends m l = [] then s
      else act.appends m l ++ if s = [] then [act.sentinel m] else s

/-- A wait is cancelled only for a node that there is. -/
def Known (m : Memory T) : Act → Prop
  | transferAfterCancelledWait node => node < m.fresh
  | _ => True

end Act

variable [DecidableEq T]

/-- A thread makes the call, which returns. -/
def Act.Does (act : Act) (m m' : Memory T) : Prop :=
  act.Known m ∧ ∃ t input, Runs t input m (act.method t) m' ()

/-- The condition is a chain of nodes, and the queue has no head without a tail. -/
structure Memory.Conditioned (m : Memory T) (l : List Ref) : Prop where
  queue : m.Queue l
  allocated : m.Allocated l
  headed : m.Headed

/-- What a call does to the condition, and to a queue that is a chain. -/
structure Act.Effect (act : Act) (m : Memory T) (l : List Ref) (m' : Memory T) (l' : List Ref) :
    Prop where
  leaves : act.Leaves m l l'
  after : m'.Conditioned l'
  appended : m'.appended = act.appends m l ++ m.appended
  lined : ∀ s, m.Lined s → (∀ a ∈ act.appends m l, a ∉ s) →
    ∃ s', act.Lines m l s s' ∧ m'.Lined s'
  looped : ∀ s, m.Lined s → (∃ a ∈ act.appends m l, a ∈ s) → m'.Looped

/-! ## Calls that only deal with the condition -/

/-- An operation that leaves the queue as it is. -/
def OfCondition : Op T → Prop
  | .get _ | .getWaitStatus _ | .newNode _ _ _ => True
  | .set field _ =>
    match field with
    | .firstWaiter | .lastWaiter | .nextWaiter _ => True
    | _ => False
  | _ => False

omit [DecidableEq T] in
theorem only_unlinkCancelledWaiters_ofCondition :
    Only OfCondition (unlinkCancelledWaiters : Method T Unit) := by
  refine only_then (only_op trivial) fun t => only_forever (fun cursor => ?_) _
  obtain ⟨t, trail⟩ := cursor
  cases t with
  | none => exact only_pure
  | some t =>
    refine only_then (only_op trivial) fun next => only_then (only_op trivial) fun ws => ?_
    refine only_ite (only_then (only_op trivial) fun _ => ?_) only_pure
    refine only_then (only_op ?_) fun _ => ?_
    · cases trail <;> trivial
    · exact only_then (only_ite (only_op trivial) only_pure) fun _ => only_pure

omit [DecidableEq T] in
theorem only_addConditionWaiter_ofCondition (t : T) : Only OfCondition (addConditionWaiter t) := by
  refine only_then (only_op trivial) fun last => only_then ?_ fun last => ?_
  · cases last with
    | none => exact only_pure
    | some last =>
      refine only_then (only_op trivial) fun ws => only_ite ?_ only_pure
      exact only_then only_unlinkCancelledWaiters_ofCondition fun _ => only_op trivial
  · refine only_then (only_op trivial) fun node => only_then (only_op ?_) fun _ => ?_
    · cases last <;> trivial
    · exact only_then (only_op trivial) fun _ => only_pure

/-- What they keep of the memory. -/
structure Memory.Queues (m m' : Memory T) : Prop where
  tail : m'.field .tail = m.field .tail
  head : m'.field .head = m.field .head
  prev : m'.prev = m.prev
  fresh : m.fresh ≤ m'.fresh
  appended : m'.appended = m.appended

omit [DecidableEq T] in
theorem Memory.Queues.trans {m'' : Memory T} (h : m.Queues m') (h' : m'.Queues m'') :
    m.Queues m'' :=
  ⟨h'.tail.trans h.tail, h'.head.trans h.head, h'.prev.trans h.prev, h.fresh.trans h'.fresh,
    h'.appended.trans h.appended⟩

omit [DecidableEq T] in
theorem Memory.queues_refl (m : Memory T) : m.Queues m := ⟨rfl, rfl, rfl, Nat.le_refl _, rfl⟩

omit [DecidableEq T] in
theorem Memory.queues_newNode (m : Memory T) (thread : Option T) (ws : ℤ) (mode : Option Ref) :
    m.Queues (m.newNode thread ws mode) := by
  refine ⟨?_, ?_, ?_, Nat.le_succ m.fresh, rfl⟩
  · simp
  · simp
  · funext b
    simp [Memory.prev]

omit [DecidableEq T] in
theorem Memory.queues_set (m : Memory T) (field : Field) (v : Option Ref)
    (h : OfCondition (.set field v : Op T)) : m.Queues (m.set field v) := by
  cases field with
  | firstWaiter | lastWaiter | nextWaiter =>
    refine ⟨?_, ?_, ?_, Nat.le_refl _, rfl⟩
    · simp
    · simp
    · funext b
      simp [Memory.prev]
  | _ => exact h.elim

omit [DecidableEq T] in
theorem Memory.queues_unlinkFirst (m : Memory T) (a : Ref) : m.Queues (m.unlinkFirst a) := by
  have hfirst : m.Queues (m.set .firstWaiter (m.nextWaiter a)) :=
    m.queues_set .firstWaiter (m.nextWaiter a) trivial
  unfold Memory.unlinkFirst
  split
  · exact hfirst.trans (Memory.queues_set _ .lastWaiter none trivial)
  · exact hfirst

omit [DecidableEq T] in
theorem Memory.base_unlinkFirst (m : Memory T) (a : Ref) : (m.unlinkFirst a).base s = m.base s := by
  unfold Memory.unlinkFirst
  split <;> rfl

theorem queues_perform {t : T} {input : Input} {o : Op T} (h : OfCondition o) (m : Memory T) :
    m.Queues (m.perform t input o).1 := by
  cases o with
  | get | getWaitStatus => exact m.queues_refl
  | newNode thread ws mode => exact m.queues_newNode thread ws mode
  | set field v => exact m.queues_set field v h
  | _ => exact h.elim

theorem queues_of_only {α : Type} {method : Method T α} (h : Only OfCondition method) {t : T}
    {input : Input} {a : α} (hruns : Runs t input m method m' a) : m.Queues m' :=
  h.returns_keeps (J := m.Queues) (fun m₁ _ ho hm => hm.trans (queues_perform ho m₁)) m.queues_refl
    hruns

omit [DecidableEq T] in
theorem Memory.Lined.of_queues (h : m.Lined s) (hqueues : m.Queues m') : m'.Lined s :=
  h.congr hqueues.tail hqueues.head hqueues.prev hqueues.fresh

omit [DecidableEq T] in
theorem Memory.Headed.of_queues (h : m.Headed) (hqueues : m.Queues m') : m'.Headed := by
  intro htail
  rw [hqueues.head]
  exact h (hqueues.tail.symm.trans htail)

omit [DecidableEq T] in
/-- A call that appends nothing. -/
theorem Act.Effect.of_lined {act : Act} {l' : List Ref} (hleaves : act.Leaves m l l')
    (hafter : m'.Conditioned l') (hnone : act.appends m l = []) (happended : m'.appended = m.appended)
    (hlined : ∀ s, m.Lined s → ∃ s', act.Lines m l s s' ∧ m'.Lined s') :
    act.Effect m l m' l' := by
  refine ⟨hleaves, hafter, ?_, fun s hs _ => hlined s hs, fun s _ hsome => ?_⟩
  · rw [hnone]
    exact happended
  · obtain ⟨a, ha, -⟩ := hsome
    rw [hnone] at ha
    exact absurd ha List.not_mem_nil

variable {t : T} {input : Input}

/-- The node of a new waiter is allocated. -/
theorem fresh_lt_of_adds (h : m.Queue l) (hadds : Runs t input m (addConditionWaiter t) m' a) :
    m.fresh < m'.fresh := by
  obtain ⟨m₁, l', hruns, -, -, -, hsame⟩ := lastWaiting_runs t input h
  have hall : Runs t input m (addConditionWaiter t)
      (((m₁.newNode (some t) CONDITION none).follow l'.getLast? (some m₁.fresh)).set .lastWaiter
        (some m₁.fresh)) m₁.fresh := by
    refine returns_then returns_lift ?_
    change Returns _ m (lastWaiting (m.field .lastWaiter) >>= _) _ _
    rw [h.last]
    exact returns_then hruns (returns_then returns_lift (returns_then returns_lift
      (returns_then returns_lift returns_pure)))
  obtain ⟨rfl, -⟩ := hadds.unique hall
  rw [← hsame.fresh]
  exact Nat.lt_succ_self m₁.fresh

theorem addConditionWaiter_effect (h : m.Conditioned l)
    (hruns : Runs t input m (Act.addConditionWaiter.method t) m' ()) :
    ∃ l', Act.addConditionWaiter.Effect m l m' l' := by
  obtain ⟨m₁, hadds, hadded⟩ := addConditionWaiter_added t input h.queue h.allocated
  obtain ⟨rfl, -⟩ := hruns.unique (returns_then hadds returns_pure)
  have hqueues : m.Queues m' := queues_of_only (only_addConditionWaiter_ofCondition t) hadds
  obtain ⟨kept, hqueue, hsublist, hwaiting⟩ := hadded.queue
  refine ⟨kept ++ [m.fresh], .of_lined ⟨kept, rfl, hsublist, hwaiting⟩
    ⟨hqueue, ?_, h.headed.of_queues hqueues⟩ rfl hqueues.appended
    fun s hs => ⟨s, rfl, hs.of_queues hqueues⟩⟩
  have hfresh : m.fresh < m'.fresh := fresh_lt_of_adds h.queue hadds
  intro a ha
  obtain ha | ha := List.mem_append.mp ha
  · exact Nat.lt_trans (h.allocated a (hsublist.subset ha)) hfresh
  · rw [List.mem_singleton.mp ha]
    exact hfresh

theorem unlinkCancelledWaiters_effect (h : m.Conditioned l)
    (hruns : Runs t input m (Act.unlinkCancelledWaiters.method t) m' ()) :
    ∃ l', Act.unlinkCancelledWaiters.Effect m l m' l' := by
  obtain ⟨m₁, hunlinks, hlinked⟩ := unlinkCancelledWaiters_linkedOut t input h.queue
  obtain ⟨rfl, -⟩ := Returns.unique hruns hunlinks
  have hqueues : m.Queues m' := queues_of_only only_unlinkCancelledWaiters_ofCondition hunlinks
  refine ⟨m.waiting l, .of_lined rfl ⟨hlinked.queue, ?_, h.headed.of_queues hqueues⟩ rfl
    hqueues.appended fun s hs => ⟨s, rfl, hs.of_queues hqueues⟩⟩
  intro a ha
  rw [hlinked.same.fresh]
  exact h.allocated a (List.mem_of_mem_filter ha)

/-! ## Calls that append nodes -/

theorem signal_effect (h : m.Conditioned l) (hruns : Runs t input m (Act.signal.method t) m' ()) :
    ∃ l', Act.signal.Effect m l m' l' := by
  obtain ⟨hthrows, hheld⟩ : input.throws = false ∧ input.boolean = true := held_of_runs hruns
  have hfirst : m.field .firstWaiter = l.head? := h.queue.leads.head_eq
  cases l with
  | nil =>
    obtain ⟨rfl, -⟩ := Returns.unique hruns (signalBy_runs_of_none hthrows hheld hfirst)
    exact ⟨[], .of_lined rfl h rfl rfl fun s hs => ⟨s, rfl, hs⟩⟩
  | cons a l =>
    have hsignals : Runs t input m signal ((m.unlinkFirst a).handOver a) () :=
      signalBy_runs hthrows hheld hfirst (doSignal_runs h.headed)
    obtain ⟨rfl, -⟩ := Returns.unique hruns hsignals
    have ha : a ∉ l := (List.nodup_cons.mp h.queue.leads.nodup).1
    have hqueues : m.Queues (m.unlinkFirst a) := m.queues_unlinkFirst a
    have hallocated : (m.unlinkFirst a).Allocated (a :: l) := fun b hb =>
      Nat.lt_of_lt_of_le (h.allocated b hb) hqueues.fresh
    have hrest : (m.unlinkFirst a).Allocated l := fun b hb =>
      hallocated b (List.mem_cons_of_mem a hb)
    refine ⟨l, rfl, ⟨h.queue.unlinkFirst.handOver hrest ha, Memory.allocated_handOver hrest,
      (m.unlinkFirst a).headed_handOver a⟩, ?_, fun s hs hnot => ?_, fun s hs hmem => ?_⟩
    · rw [Memory.handOver, Memory.appended_transfer]
      exact congrArg (a :: ·) hqueues.appended
    · refine ⟨a :: m.base s, rfl, ?_⟩
      rw [← m.base_unlinkFirst a]
      exact (hs.of_queues hqueues).handOver (hallocated a List.mem_cons_self)
        (hnot a List.mem_cons_self)
    · obtain ⟨b, hb, hbs⟩ := hmem
      obtain rfl := List.mem_singleton.mp hb
      exact (hs.of_queues hqueues).looped_handOver hbs

theorem signalAll_effect (h : m.Conditioned l)
    (hruns : Runs t input m (Act.signalAll.method t) m' ()) :
    ∃ l', Act.signalAll.Effect m l m' l' := by
  obtain ⟨hthrows, hheld⟩ : input.throws = false ∧ input.boolean = true := held_of_runs hruns
  have hfirst : m.field .firstWaiter = l.head? := h.queue.leads.head_eq
  cases l with
  | nil =>
    obtain ⟨rfl, -⟩ := Returns.unique hruns (signalBy_runs_of_none hthrows hheld hfirst)
    exact ⟨[], .of_lined rfl h rfl rfl fun s hs => ⟨s, rfl, hs⟩⟩
  | cons a l =>
    have hleads : Leads m.nextWaiter (some a) (a :: l) none := by
      have hqueue := h.queue.leads
      rwa [hfirst] at hqueue
    have hsignals : Runs t input m signalAll ((a :: l).foldl Memory.handOver
        ((m.set .firstWaiter none).set .lastWaiter none)) () :=
      signalBy_runs hthrows hheld hfirst (doSignalAll_runs h.headed h.allocated hleads)
    obtain ⟨rfl, -⟩ := Returns.unique hruns hsignals
    have hqueues : m.Queues ((m.set .firstWaiter none).set .lastWaiter none) :=
      (m.queues_set .firstWaiter none trivial).trans (Memory.queues_set _ .lastWaiter none trivial)
    obtain ⟨hnofirst, hnolast⟩ :=
      ((m.set .firstWaiter none).set .lastWaiter none).field_foldl (a :: l)
    have hnil : List.reverse (a :: l) ≠ [] := List.reverse_ne_nil_iff.mpr (List.cons_ne_nil a l)
    refine ⟨[], rfl, ⟨⟨?_, ?_⟩, fun b hb => absurd hb List.not_mem_nil,
      Memory.headed_foldl (List.cons_ne_nil a l)⟩, ?_, fun s hs hnot => ?_, fun s hs hmem => ?_⟩
    · rw [hnofirst]
      simp
    · rw [hnolast]
      simp
    · exact Memory.appended_foldl _ (a :: l)
    · refine ⟨(a :: l).reverse ++ m.base s, (if_neg hnil).symm, ?_⟩
      refine (hs.of_queues hqueues).foldl h.allocated h.queue.leads.nodup (fun b hb => ?_) (List.cons_ne_nil a l)
      exact hnot b (List.mem_reverse.mpr hb)
    · obtain ⟨b, hb, hbs⟩ := hmem
      exact (hs.of_queues hqueues).looped_foldl h.allocated ⟨b, List.mem_reverse.mp hb, hbs⟩

omit [DecidableEq T] in
/-- A call that appends one node. -/
theorem Act.Effect.of_enqueue {act : Act} (h : m'.Conditioned l) (hnode : node < m'.fresh)
    (hsame : ∀ s, m.Lined s → m'.Lined s) (happended : m'.appended = m.appended)
    (hleaves : act.Leaves m l l) (hone : act.appends m l = [node])
    (hlines : ∀ s, act.Lines m l s (node :: m'.base s)) : act.Effect m l (m'.enqueue node) l := by
  have hwaits : m'.Waits (m'.enqueue node) := m'.waits_enqueue node
  refine ⟨hleaves, ⟨hwaits.queue h.allocated h.queue, hwaits.allocated h.allocated,
    m'.headed_enqueue node⟩, ?_, fun s hs hnot => ?_, fun s hs hmem => ?_⟩
  · rw [hone, ← happended]
    exact m'.appended_enqueue node
  · rw [hone] at hnot
    exact ⟨_, hlines s, (hsame s hs).enqueue hnode (hnot node List.mem_cons_self)⟩
  · rw [hone] at hmem
    obtain ⟨a, ha, has⟩ := hmem
    obtain rfl := List.mem_singleton.mp ha
    exact (hsame s hs).sync.endless has

theorem transferAfterCancelledWait_effect (h : m.Conditioned l) (hnode : node < m.fresh)
    (hruns : Runs t input m ((Act.transferAfterCancelledWait node).method t) m' ()) :
    ∃ l', (Act.transferAfterCancelledWait node).Effect m l m' l' := by
  obtain ⟨m₁, b, hcall, hend⟩ := hruns.of_then
  obtain ⟨rfl, -⟩ := hend.unique returns_pure
  by_cases hwaits : m.waitStatus node = CONDITION
  · obtain ⟨rfl, -⟩ := hcall.unique (transferAfterCancelledWait_runs h.headed hwaits)
    have hone : (Act.transferAfterCancelledWait node).appends m l = [node] := if_pos hwaits
    have hbefore : (m.setWaitStatus node 0).Conditioned l :=
      ⟨⟨h.queue.leads, h.queue.last⟩, h.allocated, h.headed⟩
    refine ⟨l, .of_enqueue hbefore hnode (fun s hs => hs.congr rfl rfl rfl (Nat.le_refl _)) rfl rfl
      hone fun s => ?_⟩
    show node :: m.base s = if (Act.transferAfterCancelledWait node).appends m l = [] then s
      else (Act.transferAfterCancelledWait node).appends m l ++ m.base s
    rw [hone, if_neg (List.cons_ne_nil node [])]
    rfl
  · obtain rfl := transferAfterCancelledWait_same hwaits hcall
    have hnone : (Act.transferAfterCancelledWait node).appends m' l = [] := if_neg hwaits
    exact ⟨l, .of_lined rfl h hnone rfl fun s hs => ⟨s, (if_pos hnone).symm, hs⟩⟩

theorem addWaiter_effect {mode : Option Ref} (h : m.Conditioned l)
    (hruns : Runs t input m ((Act.addWaiter mode).method t) m' ()) :
    ∃ l', (Act.addWaiter mode).Effect m l m' l' := by
  obtain ⟨m₁, b, hcall, hend⟩ := hruns.of_then
  obtain ⟨rfl, -⟩ := hend.unique returns_pure
  obtain ⟨rfl, -⟩ := hcall.unique (addWaiter_runs h.headed mode)
  have hwaits : m.Waits (m.newNode (some t) 0 mode) := by
    refine ⟨?_, ?_, fun a ha => ?_, Nat.le_succ m.fresh⟩
    · simp
    · simp
    · have hne : a ≠ m.fresh := Nat.ne_of_lt ha
      simp [Memory.nextWaiter, hne]
  have hqueues := m.queues_newNode (some t) 0 mode
  have hbefore : (m.newNode (some t) 0 mode).Conditioned l :=
    ⟨hwaits.queue h.allocated h.queue, hwaits.allocated h.allocated, h.headed.of_queues hqueues⟩
  exact ⟨l, .of_enqueue hbefore (Nat.lt_succ_self m.fresh) (fun s hs => hs.of_queues hqueues) rfl rfl
    rfl fun s => rfl⟩

/-! ## Taking the lock -/

/-- The first node behind the head becomes the head. -/
def Memory.dequeue (m : Memory T) (p node : Ref) : Memory T :=
  (((m.set .head (some node)).setThread node none).set (.prev node) none).set (.next p) none

omit [DecidableEq T] in
theorem Memory.prev_dequeue (m : Memory T) (p node : Ref) :
    (m.dequeue p node).prev = Function.update m.prev node none := by
  funext b
  simp [dequeue, Memory.prev, set, setThread, Function.update_apply]

omit [DecidableEq T] in
theorem Memory.Lined.dequeue {xs : List Ref} (h : m.Lined (xs ++ [node, p])) :
    (m.dequeue p node).Lined (xs ++ [node]) := by
  have hnodup : (xs ++ [node, p]).Nodup := h.nodup
  have hleads := h.sync.leads
  have hnext : m.prev p = none := by
    rw [List.append_cons] at hleads
    exact next_of_leads hleads
  have htail : (m.dequeue p node).field .tail = m.field .tail := by
    simp [Memory.dequeue, Memory.set, Memory.setThread]
  refine ⟨⟨?_, ?_⟩, fun a ha => ?_, fun a ha => ?_⟩
  · rw [htail, Memory.prev_dequeue]
    obtain ⟨q, hxs, hnode, -⟩ := leads_append.mp hleads
    have hnot : node ∉ xs := fun hmem =>
      List.disjoint_of_nodup_append hnodup hmem List.mem_cons_self
    exact leads_append.mpr ⟨q, (leads_update hnot).mpr hxs, hnode, Function.update_self ..⟩
  · rw [List.getLast?_concat]
    simp [Memory.dequeue, Memory.set, Memory.setThread]
  · refine h.allocated a ?_
    rw [List.append_cons]
    exact List.mem_append_left [p] ha
  · rw [Memory.prev_dequeue]
    by_cases hnode : a = node
    · rw [hnode, Function.update_self]
    · rw [Function.update_of_ne hnode]
      by_cases hp : a = p
      · rw [hp]
        exact hnext
      · refine h.outside a fun hmem => ?_
        rw [List.append_cons] at hmem
        obtain hmem | hmem := List.mem_append.mp hmem
        · exact ha hmem
        · exact hp (List.mem_singleton.mp hmem)

omit [DecidableEq T] in
theorem Memory.waits_dequeue (m : Memory T) (p node : Ref) : m.Waits (m.dequeue p node) := by
  refine ⟨?_, ?_, fun a ha => ?_, Nat.le_refl m.fresh⟩
  · simp [dequeue, set, setThread]
  · simp [dequeue, set, setThread]
  · simp [dequeue, set, setThread, nextWaiter]

theorem predecessor_of_runs {m₁ : Memory T} (h : Runs t input m (predecessor node) m₁ p) :
    m₁ = m ∧ m.prev node = some p := by
  cases hprev : m.prev node with
  | none =>
    have hthrows : Returns (fun m o => m.perform t input o) m (predecessor node) m
        (.error .nullPointer) := by
      refine returns_then returns_lift ?_
      change Returns _ m (deref (m.prev node)) _ _
      rw [hprev]
      exact ⟨0, rfl⟩
    cases (h.unique hthrows).2
  | some q =>
    have hruns : Runs t input m (predecessor node) m q := by
      refine returns_then returns_lift ?_
      change Returns _ m (deref (m.prev node)) _ _
      rw [hprev]
      exact returns_pure
    obtain ⟨rfl, heq⟩ := h.unique hruns
    cases heq
    exact ⟨rfl, rfl⟩

theorem tryAcquire_same {arg : ℤ} {b : Bool} (h : Runs t input m (tryAcquire arg) m' b) :
    m' = m := by
  obtain ⟨m₁, answer, hop, hanswered⟩ := h.of_then
  obtain ⟨rfl, -⟩ := hop.unique returns_lift
  cases answer with
  | none =>
    have hthrows : Returns (fun m o => m.perform t input o) m₁ (answered none : Method T Bool) m₁
        (.error .subclass) := ⟨0, rfl⟩
    cases (hanswered.unique hthrows).2
  | some b' => exact (hanswered.unique returns_pure).1

/-- An attempt changes nothing, or it is that of the first node and succeeds. -/
theorem attempt_cases {arg : ℤ} {b : Bool} (h : Runs t input m (attempt p node arg) m' b) :
    m' = m ∨ m.field .head = some p ∧ m' = m.dequeue p node := by
  obtain ⟨m₁, head, hget, hrest⟩ := h.of_then
  obtain ⟨rfl, hhead⟩ := hget.unique returns_lift
  obtain rfl := Except.ok.inj hhead
  replace hrest : Runs t input m₁ (if some p = m₁.field .head then (do
      if ← tryAcquire arg then
        setHead node
        set (.next p) none
        return true
      else return false) else return false) m' b := hrest
  by_cases hfirst : some p = m₁.field .head
  · rw [if_pos hfirst] at hrest
    obtain ⟨m₂, acquired, htry, hend⟩ := hrest.of_then
    obtain rfl := tryAcquire_same htry
    cases acquired with
    | false => exact .inl (hend.unique returns_pure).1
    | true =>
      have hdequeues : Runs t input m₂ (do
          setHead node
          set (.next p) none
          return true) (m₂.dequeue p node) true := by
        refine returns_then (a := ()) ?_ (returns_then returns_lift returns_pure)
        exact returns_then returns_lift (returns_then returns_lift returns_lift)
      exact .inr ⟨hfirst.symm, (hend.unique hdequeues).1⟩
  · rw [if_neg hfirst] at hrest
    exact .inl (hrest.unique returns_pure).1

omit [DecidableEq T] in
/-- The node whose predecessor is the head is the first one behind it. -/
theorem Memory.Lined.eq_of_head (h : m.Lined s) (hprev : m.prev node = some p)
    (hhead : m.field .head = some p) : ∃ xs, s = xs ++ [node, p] := by
  have hmem : node ∈ s := by
    by_contra hnot
    rw [h.outside node hnot] at hprev
    cases hprev
  obtain ⟨xs, ys, rfl⟩ := h.sync.leads.split hmem hprev
  have hlast : (xs ++ node :: p :: ys).getLast? = some p := h.sync.head.symm.trans hhead
  have hp : p ∉ ys := (List.nodup_cons.mp (List.nodup_cons.mp h.nodup.of_append_right).2).1
  obtain rfl | ⟨zs, c, rfl⟩ := List.eq_nil_or_concat ys
  · exact ⟨xs, rfl⟩
  · rw [List.concat_eq_append, ← List.cons_append, ← List.cons_append, ← List.append_assoc,
      List.getLast?_concat] at hlast
    cases hlast
    exact absurd (by simp) hp

omit [DecidableEq T] in
theorem Memory.Headed.dequeue (h : m.Headed) (hhead : m.field .head = some p) :
    (m.dequeue p node).Headed := by
  intro htail
  have hsame : (m.dequeue p node).field .tail = m.field .tail := by
    simp [Memory.dequeue, Memory.set, Memory.setThread]
  rw [h (hsame.symm.trans htail)] at hhead
  cases hhead

theorem attempt_effect {arg : ℤ} (h : m.Conditioned l)
    (hruns : Runs t input m ((Act.attempt node arg).method t) m' ()) :
    ∃ l', (Act.attempt node arg).Effect m l m' l' := by
  obtain ⟨m₁, p, hget, hrest⟩ := hruns.of_then
  obtain ⟨rfl, hprev⟩ := predecessor_of_runs hget
  obtain ⟨m₂, b, hattempt, hend⟩ := hrest.of_then
  obtain ⟨rfl, -⟩ := hend.unique returns_pure
  obtain rfl | ⟨hhead, rfl⟩ := attempt_cases hattempt
  · exact ⟨l, .of_lined rfl h rfl rfl fun s hs => ⟨s, .inl rfl, hs⟩⟩
  · have hwaits : m₁.Waits (m₁.dequeue p node) := m₁.waits_dequeue p node
    refine ⟨l, .of_lined rfl ⟨hwaits.queue h.allocated h.queue, hwaits.allocated h.allocated,
      h.headed.dequeue hhead⟩ rfl rfl fun s hs => ?_⟩
    obtain ⟨xs, rfl⟩ := hs.eq_of_head hprev hhead
    exact ⟨xs ++ [node], .inr ⟨xs, p, rfl, rfl⟩, hs.dequeue⟩

/-! ## Runs -/

theorem Act.Does.effect {act : Act} (hdoes : act.Does m m') (h : m.Conditioned l) :
    ∃ l', act.Effect m l m' l' := by
  obtain ⟨hknown, t, input, hruns⟩ := hdoes
  cases act with
  | addConditionWaiter => exact addConditionWaiter_effect h hruns
  | unlinkCancelledWaiters => exact unlinkCancelledWaiters_effect h hruns
  | signal => exact signal_effect h hruns
  | signalAll => exact signalAll_effect h hruns
  | transferAfterCancelledWait node => exact transferAfterCancelledWait_effect h hknown hruns
  | addWaiter mode => exact addWaiter_effect h hruns
  | attempt node arg => exact attempt_effect h hruns
  | setWaitStatus node ws =>
    obtain ⟨rfl, -⟩ := Returns.unique hruns returns_lift
    exact ⟨l, .of_lined rfl ⟨⟨h.queue.leads, h.queue.last⟩, h.allocated, h.headed⟩ rfl rfl
      fun s hs => ⟨s, rfl, hs.congr rfl rfl rfl (Nat.le_refl _)⟩⟩

/-- What can be reached by calls. -/
inductive Reached : Memory T → Prop where
  | start : Reached .start
  | does {m m' : Memory T} {act : Act} (h : Reached m) (hdoes : act.Does m m') : Reached m'

/-- What can be reached by calls after each of which the queue is a chain from the tail to the
head. -/
inductive ReachedChained : Memory T → Prop where
  | start : ReachedChained .start
  | does {m m' : Memory T} {act : Act} {s : List Ref} (h : ReachedChained m) (hdoes : act.Does m m')
    (hqueue : m'.SyncQueue s) : ReachedChained m'

omit [DecidableEq T] in
theorem Memory.Looped.not_syncQueue (h : m.Looped) (s : List Ref) : ¬ m.SyncQueue s :=
  fun hqueue => h.not_leads s hqueue.leads

omit [DecidableEq T] in
theorem Act.Effect.lined_of_syncQueue {act : Act} {l' s' : List Ref} (h : act.Effect m l m' l')
    (hs : m.Lined s) (hqueue : m'.SyncQueue s') : act.Lines m l s s' ∧ m'.Lined s' := by
  by_cases hmem : ∃ a ∈ act.appends m l, a ∈ s
  · exact absurd hqueue ((h.looped s hs hmem).not_syncQueue s')
  · obtain ⟨s'', hlines, hlined⟩ := h.lined s hs fun a ha has => hmem ⟨a, ha, has⟩
    obtain rfl := hlined.sync.leads.unique hqueue.leads
    exact ⟨hlines, hlined⟩

omit [DecidableEq T] in
theorem Memory.conditioned_start : (Memory.start : Memory T).Conditioned [] :=
  ⟨⟨rfl, rfl⟩, fun _ ha => absurd ha List.not_mem_nil, fun _ => rfl⟩

omit [DecidableEq T] in
theorem Memory.lined_start : (Memory.start : Memory T).Lined [] :=
  ⟨⟨rfl, rfl⟩, fun _ ha => absurd ha List.not_mem_nil, fun _ _ => rfl⟩

theorem Reached.conditioned (h : Reached m) : ∃ l, m.Conditioned l := by
  induction h with
  | start => exact ⟨[], Memory.conditioned_start⟩
  | does h hdoes ih =>
    obtain ⟨l, hbefore⟩ := ih
    obtain ⟨l', heffect⟩ := hdoes.effect hbefore
    exact ⟨l', heffect.after⟩

theorem ReachedChained.reached (h : ReachedChained m) : Reached m := by
  induction h with
  | start => exact .start
  | does h hdoes hqueue ih => exact ih.does hdoes

theorem ReachedChained.lined (h : ReachedChained m) : ∃ s, m.Lined s := by
  induction h with
  | start => exact ⟨[], Memory.lined_start⟩
  | does h hdoes hqueue ih =>
    obtain ⟨s, hs⟩ := ih
    obtain ⟨l, hbefore⟩ := h.reached.conditioned
    obtain ⟨l', heffect⟩ := hdoes.effect hbefore
    exact ⟨_, (heffect.lined_of_syncQueue hs hqueue).2⟩

/-- The next call keeps the condition a chain. If every call so far has kept the queue one, it keeps
that too if and only if no node that it appends is on it. Otherwise following `prev` from the tail
never ends. -/
theorem Reached.does_iff (h : Reached m) {act : Act} (hdoes : act.Does m m') :
    ∃ l l', m.Queue l ∧ m'.Queue l' ∧ act.Leaves m l l' ∧
      m'.appended = act.appends m l ++ m.appended ∧
      (ReachedChained m → ∃ s, m.SyncQueue s ∧
        ((∃ s', m'.SyncQueue s') ↔ ∀ a ∈ act.appends m l, a ∉ s) ∧
        (m'.Looped ∨ ∃ s', m'.SyncQueue s' ∧ act.Lines m l s s')) := by
  obtain ⟨l, hbefore⟩ := h.conditioned
  obtain ⟨l', heffect⟩ := hdoes.effect hbefore
  refine ⟨l, l', hbefore.queue, heffect.after.queue, heffect.leaves, heffect.appended,
    fun hchained => ?_⟩
  obtain ⟨s, hs⟩ := hchained.lined
  refine ⟨s, hs.sync, ⟨fun hchain a ha has => ?_, fun hnot => ?_⟩, ?_⟩
  · obtain ⟨s', hqueue⟩ := hchain
    exact (heffect.looped s hs ⟨a, ha, has⟩).not_syncQueue s' hqueue
  · obtain ⟨s', -, hlined⟩ := heffect.lined s hs hnot
    exact ⟨s', hlined.sync⟩
  · by_cases hmem : ∃ a ∈ act.appends m l, a ∈ s
    · exact .inl (heffect.looped s hs hmem)
    · obtain ⟨s', hlines, hlined⟩ := heffect.lined s hs fun a ha has => hmem ⟨a, ha, has⟩
      exact .inr ⟨s', hlined.sync, hlines⟩

/-- What a call of a thread that holds the lock makes of the memory. -/
def Act.apply (act : Act) (t : T) (m : Memory T) : Option (Memory T) :=
  match execute (fun m o => m.perform t ⟨0, true, false, 0⟩ o) 100 m (act.method t) with
  | some (m', .ok ()) => some m'
  | _ => none

theorem Act.does_of_apply (act : Act) (t : T) (hknown : act.Known m)
    (h : act.apply t m = some m') : act.Does m m' := by
  refine ⟨hknown, t, ⟨0, true, false, 0⟩, 100, ?_⟩
  unfold apply at h
  split at h
  · rename_i heq
    cases h
    exact heq
  · cases h

/-- Two threads wait, and the first one gives up. -/
theorem exists_gaveUp : ∃ m : Memory Bool, ReachedChained m ∧ m.Queue [1, 2] ∧ m.SyncQueue [1, 3] ∧
    m.waiting [1, 2] = [2] ∧ m.threads [2] = [true] := by
  have hfirst : ReachedChained (T := Bool) _ := ReachedChained.start.does (s := [])
    (Act.does_of_apply .addConditionWaiter false trivial rfl) ⟨rfl, rfl⟩
  have hsecond : ReachedChained (T := Bool) _ := hfirst.does (s := [])
    (Act.does_of_apply .addConditionWaiter true trivial rfl) ⟨rfl, rfl⟩
  have hgaveUp : ReachedChained (T := Bool) _ := hsecond.does (s := [1, 3])
    (Act.does_of_apply (.transferAfterCancelledWait 1) false
      (Nat.le_of_ble_eq_true rfl) rfl) ⟨⟨rfl, rfl, rfl⟩, rfl⟩
  exact ⟨_, hgaveUp, ⟨⟨rfl, rfl, rfl⟩, rfl⟩, ⟨⟨rfl, rfl, rfl⟩, rfl⟩, rfl, rfl⟩

/-- The one that has given up is then signalled. -/
theorem Reached.does_iff_gaveUp : ∃ m m' : Memory Bool,
    ReachedChained m ∧ Act.signal.Does m m' ∧ ¬ ∃ s, m'.SyncQueue s := by
  obtain ⟨m, hchained, hqueue, hsync, -, -⟩ := exists_gaveUp
  have hsignals : Act.signal.Does m ((m.unlinkFirst 1).handOver 1) :=
    ⟨trivial, true, ⟨0, true, false, 0⟩,
      signalBy_runs rfl rfl hqueue.leads.1 (doSignal_runs hsync.headed)⟩
  obtain ⟨l, l', hl, -, -, -, hafter⟩ := hchained.reached.does_iff hsignals
  obtain ⟨s, hs, hiff, -⟩ := hafter hchained
  obtain rfl := hl.leads.unique hqueue.leads
  obtain rfl := hs.leads.unique hsync.leads
  exact ⟨m, _, hchained, hsignals, fun hchain =>
    hiff.mp hchain 1 List.mem_cons_self List.mem_cons_self⟩

end BigPlan.QueuedSynchronizer
