import BigPlan.Lock.MethodRules
import BigPlan.Lock.SyncQueue

/-!
# Handing nodes over

`signal` appends the first node of a condition to the queue of the synchronizer, `signalAll` all of
its nodes, one after the other, and a cancelled wait its own node, which stays on the condition.
-/
namespace BigPlan.QueuedSynchronizer

open Lib Lib.Chain Program Node

variable {T : Type} {m m' : Memory T} {l s : List Ref} {a p node : Ref}

namespace Memory

/-- What the condition needs stays. -/
structure Waits (m m' : Memory T) : Prop where
  first : m'.field .firstWaiter = m.field .firstWaiter
  last : m'.field .lastWaiter = m.field .lastWaiter
  nextWaiter : ∀ a < m.fresh, m'.nextWaiter a = m.nextWaiter a
  fresh : m.fresh ≤ m'.fresh

theorem Waits.allocated (h : m.Waits m') (hl : m.Allocated l) : m'.Allocated l :=
  fun a ha => Nat.lt_of_lt_of_le (hl a ha) h.fresh

theorem Waits.leads {q : Option Ref} (h : m.Waits m') (hl : m.Allocated l)
    (hleads : Leads m.nextWaiter q l none) : Leads m'.nextWaiter q l none :=
  (leads_congr fun a ha => h.nextWaiter a (hl a ha)).mpr hleads

theorem Waits.queue (h : m.Waits m') (hl : m.Allocated l) (hqueue : m.Queue l) : m'.Queue l := by
  refine ⟨?_, ?_⟩
  · rw [h.first]
    exact h.leads hl hqueue.leads
  · rw [h.last]
    exact hqueue.last

theorem waits_enqueue (m : Memory T) (node : Ref) : m.Waits (m.enqueue node) := by
  have hopened : m.Waits m.opened := by
    unfold opened
    split
    · refine ⟨?_, ?_, fun a ha => ?_, Nat.le_succ m.fresh⟩
      · simp
      · simp
      · have hne : a ≠ m.fresh := Nat.ne_of_lt ha
        simp [nextWaiter, hne]
    · exact ⟨rfl, rfl, fun a ha => rfl, Nat.le_refl m.fresh⟩
  refine ⟨?_, ?_, fun a ha => ?_, m.fresh_le_enqueue node⟩
  · rw [← hopened.first]
    simp [enqueue, behind, set]
  · rw [← hopened.last]
    simp [enqueue, behind, set]
  · rw [← hopened.nextWaiter a ha]
    simp [enqueue, behind, set, nextWaiter]

/-- What `transferForSignal` makes of the memory. -/
def transfer (m : Memory T) (node : Ref) : Memory T :=
  if 0 < (m.enqueue node).waitStatus m.last then m.enqueue node
  else (m.enqueue node).setWaitStatus m.last SIGNAL

@[simp] theorem field_transfer (m : Memory T) (node : Ref) :
    (m.transfer node).field = (m.enqueue node).field := by
  unfold transfer
  split <;> rfl

@[simp] theorem fresh_transfer (m : Memory T) (node : Ref) :
    (m.transfer node).fresh = (m.enqueue node).fresh := by
  unfold transfer
  split <;> rfl

@[simp] theorem appended_transfer (m : Memory T) (node : Ref) :
    (m.transfer node).appended = node :: m.appended := by
  rw [← m.appended_enqueue node]
  unfold transfer
  split <;> rfl

theorem prev_transfer (m : Memory T) (node : Ref) :
    (m.transfer node).prev = (m.enqueue node).prev := by
  funext b
  exact congrFun (m.field_transfer node) (.prev b)

theorem nextWaiter_transfer (m : Memory T) (node : Ref) :
    (m.transfer node).nextWaiter = (m.enqueue node).nextWaiter := by
  funext b
  exact congrFun (m.field_transfer node) (.nextWaiter b)

/-- The first node is taken from the condition. -/
def unlinkFirst (m : Memory T) (a : Ref) : Memory T :=
  let m' := m.set .firstWaiter (m.nextWaiter a)
  if m.nextWaiter a = none then m'.set .lastWaiter none else m'

theorem Queue.unlinkFirst (h : m.Queue (a :: l)) : (m.unlinkFirst a).Queue l := by
  have hrest : Leads (m.set .firstWaiter (m.nextWaiter a)).nextWaiter
      ((m.set .firstWaiter (m.nextWaiter a)).field .firstWaiter) l none := by
    rw [nextWaiter_set_firstWaiter]
    simpa using h.leads.2
  have hnext : m.nextWaiter a = l.head? := h.leads.2.head_eq
  unfold Memory.unlinkFirst
  split
  · rename_i hnone
    obtain rfl := List.head?_eq_none_iff.mp (hnext.symm.trans hnone)
    exact Queue.set_lastWaiter hrest
  · rename_i hsome
    refine ⟨hrest, ?_⟩
    cases l with
    | nil => exact absurd hnext hsome
    | cons b l => simpa using h.last

/-- A turn of the loop in `doSignalAll`. -/
def handOver (m : Memory T) (a : Ref) : Memory T := (m.set (.nextWaiter a) none).transfer a

theorem headed_handOver (m : Memory T) (a : Ref) : (m.handOver a).Headed := by
  intro htail
  rw [handOver, field_transfer, tail_enqueue] at htail
  cases htail

theorem headed_foldl (hne : l ≠ []) : (l.foldl handOver m).Headed := by
  obtain ⟨xs, a, rfl⟩ := (List.eq_nil_or_concat' l).resolve_left hne
  rw [List.foldl_append]
  exact headed_handOver (xs.foldl handOver m) a

theorem appended_foldl (m : Memory T) (l : List Ref) :
    (l.foldl handOver m).appended = l.reverse ++ m.appended := by
  induction l generalizing m with
  | nil => rfl
  | cons a l ih =>
    rw [List.foldl_cons, ih, handOver, appended_transfer, List.reverse_cons, List.append_assoc]
    rfl

/-- What the node refers to is cleared, the others keep it. -/
theorem waits_handOver (m : Memory T) (a : Ref) :
    (m.set (.nextWaiter a) none).Waits (m.handOver a) := by
  have h := (m.set (.nextWaiter a) none).waits_enqueue a
  refine ⟨?_, ?_, fun b hb => ?_, ?_⟩
  · rw [handOver, field_transfer]
    exact h.first
  · rw [handOver, field_transfer]
    exact h.last
  · rw [handOver, nextWaiter_transfer]
    exact h.nextWaiter b hb
  · rw [handOver, fresh_transfer]
    exact h.fresh

theorem leads_handOver {q : Option Ref} (hl : m.Allocated l) (ha : a ∉ l)
    (h : Leads m.nextWaiter q l none) : Leads (m.handOver a).nextWaiter q l none := by
  refine (m.waits_handOver a).leads hl ?_
  rw [nextWaiter_set_nextWaiter, leads_update ha]
  exact h

theorem allocated_handOver (hl : m.Allocated l) : (m.handOver a).Allocated l :=
  (m.waits_handOver a).allocated hl

theorem Queue.handOver (h : m.Queue l) (hl : m.Allocated l) (ha : a ∉ l) :
    (m.handOver a).Queue l := by
  refine (m.waits_handOver a).queue hl ⟨?_, ?_⟩
  · rw [nextWaiter_set_nextWaiter, leads_update ha]
    simpa using h.leads
  · simpa using h.last

theorem field_foldl (m : Memory T) (l : List Ref) :
    (l.foldl handOver m).field .firstWaiter = m.field .firstWaiter ∧
      (l.foldl handOver m).field .lastWaiter = m.field .lastWaiter := by
  induction l generalizing m with
  | nil => exact ⟨rfl, rfl⟩
  | cons a l ih =>
    obtain ⟨hfirst, hlast⟩ := ih (m.handOver a)
    have h := m.waits_handOver a
    refine ⟨hfirst.trans (h.first.trans ?_), hlast.trans (h.last.trans ?_)⟩
    · simp
    · simp

/-! ## The queue -/

theorem Lined.set_nextWaiter (h : m.Lined s) (v : Option Ref) :
    (m.set (.nextWaiter a) v).Lined s := by
  refine h.congr ?_ ?_ ?_ (Nat.le_refl m.fresh)
  · simp
  · simp
  · funext b
    simp [prev]

theorem Lined.transfer (h : m.Lined s) (hnode : node < m.fresh) (hnot : node ∉ s) :
    (m.transfer node).Lined (node :: m.base s) := by
  refine (h.enqueue hnode hnot).congr ?_ ?_ (m.prev_transfer node) ?_
  · rw [field_transfer]
  · rw [field_transfer]
  · rw [fresh_transfer]

theorem Lined.handOver (h : m.Lined s) (ha : a < m.fresh) (hnot : a ∉ s) :
    (m.handOver a).Lined (a :: m.base s) := (h.set_nextWaiter none).transfer ha hnot

/-- Following `prev` from the tail never ends. -/
def Looped (m : Memory T) : Prop := Endless m.prev (m.field .tail)

theorem looped_transfer (h : (m.enqueue node).Looped) : (m.transfer node).Looped := by
  unfold Looped
  rw [prev_transfer, field_transfer]
  exact h

theorem Looped.handOver (h : m.Looped) (a : Ref) : (m.handOver a).Looped := by
  apply looped_transfer
  apply endless_enqueue
  have hprev : (m.set (.nextWaiter a) none).prev = m.prev := by
    funext b
    simp [prev]
  have htail : (m.set (.nextWaiter a) none).field .tail = m.field .tail := by simp
  rw [hprev, htail]
  exact h

theorem Lined.looped_handOver (h : m.Lined s) (hmem : a ∈ s) : (m.handOver a).Looped :=
  looped_transfer ((h.set_nextWaiter none).sync.endless hmem)

theorem Looped.foldl (h : m.Looped) (l : List Ref) : (l.foldl Memory.handOver m).Looped := by
  induction l generalizing m with
  | nil => exact h
  | cons a l ih => exact ih (h.handOver a)

/-- The order of the nodes is reversed, since the queue is seen from its tail. -/
theorem Lined.foldl (h : m.Lined s) (hl : m.Allocated l) (hnodup : l.Nodup)
    (hnot : ∀ a ∈ l, a ∉ s) (hne : l ≠ []) :
    (l.foldl Memory.handOver m).Lined (l.reverse ++ m.base s) := by
  induction l generalizing m s with
  | nil => exact absurd rfl hne
  | cons a l ih =>
    have ha : a < m.fresh := hl a List.mem_cons_self
    have hrest : m.Allocated l := fun b hb => hl b (List.mem_cons_of_mem a hb)
    have hafter : (m.handOver a).Lined (a :: m.base s) := h.handOver ha (hnot a List.mem_cons_self)
    rw [List.foldl_cons, List.reverse_cons, List.append_assoc, List.singleton_append]
    cases l with
    | nil => exact hafter
    | cons b l =>
      have hnodup' := List.nodup_cons.mp hnodup
      refine ih hafter (allocated_handOver hrest) hnodup'.2 (fun c hc hmem => ?_)
        (List.cons_ne_nil b l)
      obtain rfl | hbase := List.mem_cons.mp hmem
      · exact hnodup'.1 hc
      · exact Lined.notMem_base (hrest c hc) (hnot c (List.mem_cons_of_mem a hc)) hbase

theorem Lined.looped_foldl (h : m.Lined s) (hl : m.Allocated l) (hmem : ∃ a ∈ l, a ∈ s) :
    (l.foldl Memory.handOver m).Looped := by
  induction l generalizing m s with
  | nil =>
    obtain ⟨a, ha, -⟩ := hmem
    exact absurd ha List.not_mem_nil
  | cons a l ih =>
    by_cases has : a ∈ s
    · exact (h.looped_handOver has).foldl l
    · obtain ⟨b, hb, hbs⟩ := hmem
      have hbl : b ∈ l := (List.mem_cons.mp hb).resolve_left fun heq => has (heq ▸ hbs)
      have hrest : m.Allocated l := fun b hb => hl b (List.mem_cons_of_mem a hb)
      exact ih (h.handOver (hl a List.mem_cons_self) has) (allocated_handOver hrest)
        ⟨b, hbl, List.mem_cons_of_mem a (Lined.subset_base hbs)⟩

end Memory

/-! ## The methods -/

variable [DecidableEq T] {t : T} {input : Input}

theorem compareAndSetWaitStatus_runs {update : ℤ} {purpose : Purpose} :
    Runs t input m (compareAndSetWaitStatus a (m.waitStatus a) update purpose)
      (m.setWaitStatus a update) true := by
  have hperform : m.perform t input (.compareAndSetWaitStatus a (m.waitStatus a) update purpose) =
      (m.setWaitStatus a update, true) := if_pos rfl
  have hruns : Runs t input m (compareAndSetWaitStatus a (m.waitStatus a) update purpose)
      (m.perform t input (.compareAndSetWaitStatus a (m.waitStatus a) update purpose)).1
      (m.perform t input (.compareAndSetWaitStatus a (m.waitStatus a) update purpose)).2 :=
    returns_lift
  rwa [hperform] at hruns

theorem transferForSignal_runs (h : m.Headed) :
    Runs t input m (transferForSignal node) (m.transfer node) true := by
  refine returns_then (enq_runs h) (returns_then returns_lift ?_)
  change Returns _ (m.enqueue node)
    ((if 0 < (m.enqueue node).waitStatus m.last then _ else _) >>= _ : Method T Bool) _ _
  unfold Memory.transfer
  split
  · refine returns_then returns_pure (returns_then (a := ()) ?_ returns_pure)
    exact returns_then returns_lift returns_lift
  · refine returns_then compareAndSetWaitStatus_runs (returns_then (a := ()) ?_ returns_pure)
    exact returns_pure

theorem doSignal_runs (h : m.Headed) :
    Runs t input m (doSignal a) ((m.unlinkFirst a).handOver a) () := by
  have hlast : Runs t input (m.set .firstWaiter (m.nextWaiter a))
      (if m.nextWaiter a = none then set .lastWaiter none else pure ()) (m.unlinkFirst a) () := by
    unfold Memory.unlinkFirst
    split
    · exact returns_lift
    · exact returns_pure
  have hheaded : ((m.unlinkFirst a).set (.nextWaiter a) none).Headed := by
    unfold Memory.unlinkFirst
    split
    · exact h
    · exact h
  refine returns_forever_inr (returns_then returns_lift (returns_then returns_lift ?_))
  refine returns_then hlast (returns_then returns_lift ?_)
  exact returns_then (transferForSignal_runs hheaded) returns_pure

/-- A turn of `doSignalAll`. -/
def handOverTurn (first : Ref) : Method T (Ref ⊕ Unit) := do
  let next ← get (.nextWaiter first)
  set (.nextWaiter first) none
  let _ ← transferForSignal first
  match next with
  | none => return .inr ()
  | some next => return .inl next

omit [DecidableEq T] in
theorem doSignalAll_eq (first : Ref) : (doSignalAll first : Method T Unit) = (do
    set .firstWaiter none
    set .lastWaiter none
    forever handOverTurn first) := rfl

theorem doSignalAll_loop (h : m.Headed) (hl : m.Allocated (a :: l))
    (hleads : Leads m.nextWaiter (some a) (a :: l) none) :
    Runs t input m (forever handOverTurn a) ((a :: l).foldl Memory.handOver m) () := by
  have hnext : m.nextWaiter a = l.head? := hleads.2.head_eq
  have hheaded : (m.set (.nextWaiter a) none).Headed := h
  induction l generalizing m a with
  | nil =>
    refine returns_forever_inr (returns_then returns_lift (returns_then returns_lift ?_))
    refine returns_then (transferForSignal_runs hheaded) ?_
    change Returns _ _ (match m.nextWaiter a with | none => _ | some next => _) _ _
    rw [hnext]
    exact returns_pure
  | cons b l ih =>
    have hturn : Runs t input m (handOverTurn a) (m.handOver a) (.inl b) := by
      refine returns_then returns_lift (returns_then returns_lift ?_)
      refine returns_then (transferForSignal_runs hheaded) ?_
      change Returns _ _ (match m.nextWaiter a with | none => _ | some next => _) _ _
      rw [hnext]
      exact returns_pure
    have hrest : m.Allocated (b :: l) := fun c hc => hl c (List.mem_cons_of_mem a hc)
    have ha : a ∉ b :: l := (List.nodup_cons.mp hleads.nodup).1
    have hafter : Leads (m.handOver a).nextWaiter (some b) (b :: l) none := by
      have hothers := hleads.2
      rw [hnext] at hothers
      exact Memory.leads_handOver hrest ha hothers
    refine returns_forever_inl hturn ?_
    exact ih (m.headed_handOver a) (Memory.allocated_handOver hrest) hafter hafter.2.head_eq
      (m.headed_handOver a)

theorem doSignalAll_runs (h : m.Headed) (hl : m.Allocated (a :: l))
    (hleads : Leads m.nextWaiter (some a) (a :: l) none) :
    Runs t input m (doSignalAll a)
      ((a :: l).foldl Memory.handOver ((m.set .firstWaiter none).set .lastWaiter none)) () := by
  have hloop : Leads ((m.set .firstWaiter none).set .lastWaiter none).nextWaiter (some a) (a :: l)
      none := by
    rw [Memory.nextWaiter_set_lastWaiter, Memory.nextWaiter_set_firstWaiter]
    exact hleads
  rw [doSignalAll_eq]
  exact returns_then returns_lift (returns_then returns_lift (doSignalAll_loop h hl hloop))

theorem isHeldExclusively_runs (hthrows : input.throws = false) :
    Runs t input m isHeldExclusively m input.boolean := by
  have hanswer : (m.perform t input .isHeldExclusively).2 = some input.boolean := by
    show (if input.throws then none else some input.boolean) = some input.boolean
    rw [hthrows]
    rfl
  refine returns_then returns_lift ?_
  rw [hanswer]
  exact returns_pure

/-- A thread that does not hold the lock gets no answer. -/
theorem held_of_runs {signal : Ref → Method T Unit} (h : Runs t input m (signalBy signal) m' ()) :
    input.throws = false ∧ input.boolean = true := by
  obtain ⟨number, boolean, throws, time⟩ := input
  cases throws with
  | true =>
    have hfails : Returns (fun m o => m.perform t ⟨number, boolean, true, time⟩ o) m
        (signalBy signal) m (.error .subclass) := ⟨1, rfl⟩
    cases (h.unique hfails).2
  | false =>
    cases boolean with
    | true => exact ⟨rfl, rfl⟩
    | false =>
      have hfails : Returns (fun m o => m.perform t ⟨number, false, false, time⟩ o) m
          (signalBy signal) m (.error .illegalMonitorState) := ⟨1, rfl⟩
      cases (h.unique hfails).2

theorem signalBy_runs {signal : Ref → Method T Unit} (hthrows : input.throws = false)
    (hheld : input.boolean = true) (hfirst : m.field .firstWaiter = some a)
    (h : Runs t input m (signal a) m' ()) : Runs t input m (signalBy signal) m' () := by
  refine returns_then (isHeldExclusively_runs hthrows) ?_
  rw [hheld]
  refine returns_then returns_lift ?_
  change Returns _ m (match m.field .firstWaiter with | none => _ | some first => signal first) _ _
  rw [hfirst]
  exact h

theorem signalBy_runs_of_none {signal : Ref → Method T Unit} (hthrows : input.throws = false)
    (hheld : input.boolean = true) (hfirst : m.field .firstWaiter = none) :
    Runs t input m (signalBy signal) m () := by
  refine returns_then (isHeldExclusively_runs hthrows) ?_
  rw [hheld]
  refine returns_then returns_lift ?_
  change Returns _ m (match m.field .firstWaiter with | none => _ | some first => signal first) _ _
  rw [hfirst]
  exact returns_pure

/-- The wait is cancelled before any signal. -/
theorem transferAfterCancelledWait_runs (h : m.Headed) (hwaits : m.waitStatus node = CONDITION) :
    Runs t input m (transferAfterCancelledWait node) ((m.setWaitStatus node 0).enqueue node)
      true := by
  have hcas : Runs t input m (compareAndSetWaitStatus node CONDITION 0 .cancelWait)
      (m.setWaitStatus node 0) true := by
    rw [← hwaits]
    exact compareAndSetWaitStatus_runs
  have henq : Runs t input (m.setWaitStatus node 0) (enq node)
      ((m.setWaitStatus node 0).enqueue node) (m.setWaitStatus node 0).last := enq_runs h
  exact returns_then hcas (returns_then henq returns_pure)

/-- An operation that only reads, or lets other threads go on. -/
def Reading : Op T → Prop
  | .get _ | .getWaitStatus _ | .yield => True
  | _ => False

omit [DecidableEq T] in
theorem only_isOnSyncQueue_reading : Only Reading (isOnSyncQueue node : Method T Bool) := by
  refine only_then (only_op trivial) fun ws => only_ite only_pure ?_
  refine only_then (only_op trivial) fun prev => only_ite only_pure ?_
  refine only_then (only_op trivial) fun next => only_ite only_pure ?_
  refine only_then (only_op trivial) fun t => only_forever (fun t => ?_) _
  cases t with
  | none => exact only_pure
  | some t => exact only_ite only_pure (only_then (only_op trivial) fun prev => only_pure)

/-- Otherwise the call only waits until the node is on the queue. -/
theorem transferAfterCancelledWait_same (hsignal : m.waitStatus node ≠ CONDITION) {b : Bool}
    (h : Runs t input m (transferAfterCancelledWait node) m' b) : m' = m := by
  have hperform : m.perform t input (.compareAndSetWaitStatus node CONDITION 0 .cancelWait) =
      (m, false) := if_neg hsignal
  obtain ⟨m₁, done, hcas, hrest⟩ := h.of_then
  have hfails : Runs t input m (compareAndSetWaitStatus node CONDITION 0 .cancelWait)
      (m.perform t input (.compareAndSetWaitStatus node CONDITION 0 .cancelWait)).1
      (m.perform t input (.compareAndSetWaitStatus node CONDITION 0 .cancelWait)).2 :=
    returns_lift
  rw [hperform] at hfails
  obtain ⟨hsame, hdone⟩ := Returns.unique hcas hfails
  obtain rfl := Except.ok.inj hdone
  rw [hsame] at hrest
  refine Only.returns_keeps (K := Reading) (J := fun m' => m' = m) ?_ (fun m' o ho h => ?_) rfl
    hrest
  · refine only_forever (fun _ => only_then only_isOnSyncQueue_reading fun queued => ?_) _
    exact only_ite only_pure (only_then (only_op trivial) fun _ => only_pure)
  · subst h
    cases o with
    | get | getWaitStatus | yield => rfl
    | _ => exact ho.elim

theorem addWaiter_runs (h : m.Headed) (mode : Option Ref) :
    Runs t input m (addWaiter t mode) ((m.newNode (some t) 0 mode).enqueue m.fresh) m.fresh := by
  have hheaded : (m.newNode (some t) 0 mode).Headed := by
    intro htail
    simpa using h (by simpa using htail)
  refine returns_then returns_lift (returns_then returns_lift ?_)
  cases htail : (m.newNode (some t) 0 mode).field .tail with
  | none =>
    have hread : ((m.perform t input (.newNode (some t) 0 mode)).1.perform t input
        (.get .tail)).2 = none := htail
    rw [hread]
    exact returns_then (enq_runs hheaded) returns_pure
  | some pred =>
    have hread : ((m.perform t input (.newNode (some t) 0 mode)).1.perform t input
        (.get .tail)).2 = some pred := htail
    rw [hread]
    have hlast : (m.newNode (some t) 0 mode).last = pred := by
      rw [Memory.last, htail, Option.getD_some]
    have hopened : (m.newNode (some t) 0 mode).opened = m.newNode (some t) 0 mode := by
      rw [Memory.opened, htail]
      rfl
    rw [Memory.enqueue, hopened, hlast]
    refine returns_then returns_lift (returns_then (compareAndSet_runs ?_) ?_)
    · show ((m.newNode (some t) 0 mode).set (.prev m.fresh) (some pred)).field .tail = some pred
      simpa using htail
    · exact returns_then returns_lift returns_pure

end BigPlan.QueuedSynchronizer
