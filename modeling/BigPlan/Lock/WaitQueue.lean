import BigPlan.Lock.PlaceSteps

/-!
# The queue of the waiting threads

The nodes of the threads that wait lead from the tail to the head. What holds of the nodes depends
only on the links between them, and what a thread knows of the links at its place is not changed by
the other threads.
-/
namespace BigPlan.QueuedSynchronizer.Exclusive

open Lib Lib.Chain Program Node

variable {T : Type}

/-- The part of the shared state that the queue depends on. -/
structure Links (T : Type) where
  field : Field → Option Ref
  thread : Ref → Option T
  fresh : Ref
  queued : List (T × Ref)
  promoted : List (T × Ref)

def Shared.links (x : Shared T) : Links T where
  field := x.memory.field
  thread := x.memory.thread
  fresh := x.memory.fresh
  queued := x.queued
  promoted := x.promoted

namespace Links

variable (l : Links T)

abbrev head : Option Ref := l.field .head

abbrev tail : Option Ref := l.field .tail

abbrev prev (n : Ref) : Option Ref := l.field (.prev n)

abbrev next (n : Ref) : Option Ref := l.field (.next n)

def set (field : Field) (v : Option Ref) : Links T :=
  { l with field := Function.update l.field field v }

def newNode (thread : Option T) : Links T :=
  { l.set (.nextWaiter l.fresh) none with
    thread := Function.update l.thread l.fresh thread
    fresh := l.fresh + 1 }

def append (t : T) (node : Ref) : Links T :=
  { l.set .tail (some node) with queued := (t, node) :: l.queued }

def promote (t : T) (node : Ref) : Links T :=
  { l.set .head (some node) with promoted := (t, node) :: l.promoted }

def clearThread (node : Ref) : Links T :=
  { l with thread := Function.update l.thread node none }

@[simp] theorem field_set (field g : Field) (v : Option Ref) :
    (l.set field v).field g = if g = field then v else l.field g := Function.update_apply ..

@[simp] theorem field_newNode (thread : Option T) (g : Field) :
    (l.newNode thread).field g = if g = .nextWaiter l.fresh then none else l.field g :=
  Function.update_apply ..

@[simp] theorem thread_newNode (thread : Option T) (n : Ref) :
    (l.newNode thread).thread n = if n = l.fresh then thread else l.thread n :=
  Function.update_apply ..

@[simp] theorem field_append (t : T) (node : Ref) (g : Field) :
    (l.append t node).field g = if g = .tail then some node else l.field g :=
  Function.update_apply ..

@[simp] theorem field_promote (t : T) (node : Ref) (g : Field) :
    (l.promote t node).field g = if g = .head then some node else l.field g :=
  Function.update_apply ..

@[simp] theorem thread_clearThread (node n : Ref) :
    (l.clearThread node).thread n = if n = node then none else l.thread n :=
  Function.update_apply ..

end Links

/-- The nodes with which the threads wait. -/
def nodesOf (waiting : List (T × Ref)) : List Ref := waiting.map Prod.snd

variable {l l' : Links T} {waiting waiting' : List (T × Ref)} {t u : T} {n m h p a b : Ref}

theorem mem_nodesOf : n ∈ nodesOf waiting ↔ ∃ u, (u, n) ∈ waiting := by
  simp [nodesOf]

/-- A new node, which only its thread knows of. -/
structure Private (l : Links T) (t : T) (n : Ref) : Prop where
  lt : n < l.fresh
  thread : l.thread n = some t
  new : n ∉ nodesOf l.queued
  next : l.next n = none

/-- A node that has been appended, or that has no thread. -/
structure Known (l : Links T) (n : Ref) : Prop where
  lt : n < l.fresh
  shown : n ∈ nodesOf l.queued ∨ l.thread n = none

theorem Private.ne_of_known (h : Private l t n) (hm : Known l m) : n ≠ m := by
  rintro rfl
  obtain hqueued | hthread := hm.shown
  · exact h.new hqueued
  · rw [h.thread] at hthread
    cases hthread

/-- A node that has left the queue, or is its head. -/
structure Gone (l : Links T) (waiting : List (T × Ref)) (h : Ref) : Prop where
  known : Known l h
  left : h ∉ nodesOf waiting

/-- From the tail, the nodes of the waiting threads lead to the head, behind which the last heads
may be. A node refers to no other one as the next one than to the one that leads to it. -/
structure Queue (l : Links T) (waiting : List (T × Ref)) (h : Ref) (last : List Ref) : Prop where
  leads : Leads l.prev (nodesOf waiting ++ [h]).head? (nodesOf waiting ++ h :: last) none
  tail : l.tail = (nodesOf waiting ++ [h]).head? ∨ l.tail = none ∧ waiting = []
  next : ∀ a ∈ nodesOf waiting ++ [h], ∀ b, l.next a = some b →
    b ∈ nodesOf waiting ∧ l.prev b = some a
  known : ∀ a ∈ nodesOf waiting ++ h :: last, Known l a

/-- The threads that have appended a node wait, or have become head in the same order. -/
structure Linked (l : Links T) (waiting : List (T × Ref)) : Prop where
  fresh : ∀ n, l.fresh ≤ n → l.prev n = none ∧ l.next n = none
  queued : l.queued = waiting ++ l.promoted
  nodup : (nodesOf l.queued).Nodup
  allocated : ∀ n ∈ nodesOf l.queued, n < l.fresh
  threads : ∀ u n, (u, n) ∈ waiting → l.thread n = some u
  headless : l.head = none → l.tail = none ∧ l.queued = []
  queue : ∀ h, l.head = some h → ∃ last, Queue l waiting h last

/-! ## What is linked -/

section Facts

variable {last : List Ref}

theorem Queue.head_notMem (hq : Queue l waiting h last) : h ∉ nodesOf waiting := fun hmem =>
  List.disjoint_of_nodup_append hq.leads.nodup hmem List.mem_cons_self

theorem Queue.gone (hq : Queue l waiting h last) : Gone l waiting h :=
  ⟨hq.known h (by simp), hq.head_notMem⟩

/-- A node of the queue leads to another one, or to the head. -/
theorem Queue.exists_prev (hq : Queue l waiting h last) (hn : n ∈ nodesOf waiting) :
    ∃ p ∈ nodesOf waiting ++ [h], l.prev n = some p := by
  have hleads := hq.leads
  obtain ⟨xs, ys, hxs⟩ := List.append_of_mem hn
  simp only [hxs, List.append_assoc, List.cons_append] at hleads
  have hnext : l.prev n = (ys ++ h :: last).head? := next_of_leads hleads
  cases ys with
  | nil => exact ⟨h, by simp, hnext⟩
  | cons y ys => exact ⟨y, by simp [hxs], hnext⟩

theorem Queue.eq_of_prev (hq : Queue l waiting h last) (hn : n ∈ nodesOf waiting)
    (hm : m ∈ nodesOf waiting) (hp : l.prev n = some p) (hp' : l.prev m = some p) : n = m :=
  hq.leads.eq_of_next (List.mem_append_left _ hn) (List.mem_append_left _ hm) hp hp'

/-- The node that leads to the head is the first one. -/
theorem Queue.first (hq : Queue l waiting h last) (hn : (t, n) ∈ waiting)
    (hp : l.prev n = some h) : ∃ before, waiting = before ++ [(t, n)] := by
  obtain ⟨before, after, rfl⟩ := List.append_of_mem hn
  have hleads := hq.leads
  have hnotMem := hq.head_notMem
  simp only [nodesOf, List.map_append, List.map_cons, List.append_assoc, List.cons_append]
    at hleads hnotMem
  have hnext : l.prev n = (after.map Prod.snd ++ h :: last).head? := next_of_leads hleads
  cases after with
  | nil => exact ⟨before, rfl⟩
  | cons y ys =>
    rw [hp, List.map_cons, List.cons_append, List.head?_cons, Option.some_inj] at hnext
    exact absurd (by simp [hnext]) hnotMem

variable (hl : Linked l waiting)
include hl

theorem Linked.mem_queued (hn : n ∈ nodesOf waiting) : n ∈ nodesOf l.queued := by
  rw [hl.queued, nodesOf, List.map_append]
  exact List.mem_append_left _ hn

theorem Linked.exists_queue (hn : n ∈ nodesOf waiting) :
    ∃ h last, l.head = some h ∧ Queue l waiting h last := by
  cases hhead : l.head with
  | none =>
    have hqueued := hl.mem_queued hn
    rw [(hl.headless hhead).2] at hqueued
    cases hqueued
  | some h =>
    obtain ⟨last, hq⟩ := hl.queue h hhead
    exact ⟨h, last, rfl, hq⟩

theorem Linked.known (hn : n ∈ nodesOf waiting) : Known l n := by
  obtain ⟨h, last, -, hq⟩ := hl.exists_queue hn
  exact hq.known n (List.mem_append_left _ hn)

/-- What a node of the queue leads to is known. -/
theorem Linked.known_prev (hn : n ∈ nodesOf waiting) (hp : l.prev n = some p) : Known l p := by
  obtain ⟨h, last, -, hq⟩ := hl.exists_queue hn
  obtain ⟨p', hmem, hp'⟩ := hq.exists_prev hn
  obtain rfl : p' = p := Option.some.inj (hp'.symm.trans hp)
  refine hq.known p' ?_
  rw [List.append_cons]
  exact List.mem_append_left _ hmem

theorem Linked.waiting_nil (htail : l.tail = none) : waiting = [] := by
  cases hhead : l.head with
  | none =>
    have hqueued := hl.queued
    rw [(hl.headless hhead).2] at hqueued
    exact (List.append_eq_nil_iff.mp hqueued.symm).1
  | some h =>
    obtain ⟨last, hq⟩ := hl.queue h hhead
    obtain hsome | hnone := hq.tail
    · rw [htail] at hsome
      cases hn : nodesOf waiting <;> simp [hn] at hsome
    · exact hnone.2

theorem Linked.eq_of_prev (hn : (t, n) ∈ waiting) (hm : (u, m) ∈ waiting)
    (hp : l.prev n = some p) (hp' : l.prev m = some p) : t = u ∧ n = m := by
  have hn' := mem_nodesOf.mpr ⟨t, hn⟩
  obtain ⟨h, last, -, hq⟩ := hl.exists_queue hn'
  obtain rfl := hq.eq_of_prev hn' (mem_nodesOf.mpr ⟨u, hm⟩) hp hp'
  have hthread := hl.threads t n hn
  rw [hl.threads u n hm] at hthread
  exact ⟨(Option.some.inj hthread).symm, rfl⟩

end Facts

/-! ## What a thread knows -/

/-- The thread has the lock, or has just left it. -/
def Place.Holds : Place T → Prop
  | .promoting _ _ _ | .acquired | .holding | .tryRelease => True
  | _ => False

/-- The thread has set the first head, and not the tail yet. -/
def Place.Starts : Place T → Prop
  | .adding _ .getHead | .adding _ (.setTail _) => True
  | _ => False

/-- The thread waits with the node, or is about to make it the head. -/
def Place.Waits (n : Ref) : Place T → Prop
  | .waiting m _ | .promoting m _ .setHead => m = n
  | _ => False

def Adding.Knows (l : Links T) (n : Ref) : Adding → Prop
  | casHead d => d < l.fresh ∧ l.thread d = none ∧ (l.head = none → l.prev d = none ∧ l.next d = none)
  | getHead => l.head ≠ none ∧ l.tail = none
  | setTail h => h ≠ none ∧ l.head = h ∧ l.tail = none
  | casTail p => l.prev n = some p
  | _ => True

def Waiting.Knows (l : Links T) (n : Ref) : Waiting → Prop
  | setNext p | getHead p | getStatus p | casStatus p _ | park p => l.prev n = some p
  | tryAcquire p => l.prev n = some p ∧ l.head = some p
  | loop | getPrev | interrupted => True

def Knows (l : Links T) (waiting : List (T × Ref)) (t : T) : Place T → Prop
  | .adding n place => Private l t n ∧ place.Knows l n
  | .waiting n place => (t, n) ∈ waiting ∧ place.Knows l n
  | .promoting n p .setHead => (t, n) ∈ waiting ∧ l.prev n = some p ∧ l.head = some p
  | .promoting n _ _ => l.head = some n
  | .getHeadStatus h | .waking h _ => Gone l waiting h
  | _ => True

/-- What a thread at the place relies on, if another one changes the links. -/
structure Rely (l l' : Links T) (waiting waiting' : List (T × Ref)) (u : T) (place : Place T) :
    Prop where
  owns : ∀ n, Private l u n → Private l' u n ∧ l'.prev n = l.prev n
  waits : ∀ n, (u, n) ∈ waiting → (u, n) ∈ waiting' ∧ l'.prev n = l.prev n
  first : ∀ n p, (u, n) ∈ waiting → l.prev n = some p → l.head = some p → l'.head = some p
  dummy : ∀ d, d < l.fresh → l.thread d = none → d < l'.fresh ∧ l'.thread d = none ∧
    (l'.head = none → l.head = none ∧ l'.prev d = l.prev d ∧ l'.next d = l.next d)
  gone : ∀ h, Gone l waiting h → Gone l' waiting' h
  starts : place.Starts → l.head ≠ none → l.tail = none → l'.head = l.head ∧ l'.tail = l.tail
  promotes : place.Holds → ∀ n, l.head = some n → l'.head = some n

theorem Adding.Knows.mono {place : Adding} (hn : Private l u n) (h : place.Knows l n)
    (hr : Rely l l' waiting waiting' u (.adding n place)) : place.Knows l' n := by
  cases place with
  | casHead d =>
    obtain ⟨hlt, hthread, hfree⟩ := h
    obtain ⟨hlt', hthread', hsame⟩ := hr.dummy d hlt hthread
    refine ⟨hlt', hthread', fun hhead => ?_⟩
    obtain ⟨hhead', hprev, hnext⟩ := hsame hhead
    rw [hprev, hnext]
    exact hfree hhead'
  | getHead =>
    obtain ⟨hhead, htail⟩ := h
    obtain ⟨hhead', htail'⟩ := hr.starts trivial hhead htail
    exact ⟨hhead' ▸ hhead, htail'.trans htail⟩
  | setTail v =>
    obtain ⟨hv, hhead, htail⟩ := h
    obtain ⟨hhead', htail'⟩ := hr.starts trivial (hhead ▸ hv) htail
    exact ⟨hv, hhead'.trans hhead, htail'.trans htail⟩
  | casTail p => exact ((hr.owns n hn).2).trans h
  | readTail => trivial
  | loop => trivial
  | enqTail => trivial
  | newHead => trivial
  | setPrev p => trivial

theorem Waiting.Knows.mono {place : Waiting} (hn : (u, n) ∈ waiting) (h : place.Knows l n)
    (hr : Rely l l' waiting waiting' u (.waiting n place)) : place.Knows l' n := by
  have hprev := (hr.waits n hn).2
  cases place with
  | tryAcquire p => exact ⟨hprev.trans h.1, hr.first n p hn h.1 h.2⟩
  | setNext p => exact hprev.trans h
  | getHead p => exact hprev.trans h
  | getStatus p => exact hprev.trans h
  | casStatus p ws => exact hprev.trans h
  | park p => exact hprev.trans h
  | loop => trivial
  | getPrev => trivial
  | interrupted => trivial

theorem Knows.mono {place : Place T} (h : Knows l waiting u place)
    (hr : Rely l l' waiting waiting' u place) : Knows l' waiting' u place := by
  cases place with
  | adding n a => exact ⟨(hr.owns n h.1).1, h.2.mono h.1 hr⟩
  | waiting n w => exact ⟨(hr.waits n h.1).1, h.2.mono h.1 hr⟩
  | promoting n p q =>
    cases q with
    | setHead =>
      exact ⟨(hr.waits n h.1).1, (hr.waits n h.1).2.trans h.2.1, hr.first n p h.1 h.2.1 h.2.2⟩
    | setThread => exact hr.promotes trivial n h
    | setPrev => exact hr.promotes trivial n h
    | setNext => exact hr.promotes trivial n h
  | getHeadStatus m => exact hr.gone m h
  | waking m w => exact hr.gone m h
  | outside => trivial
  | tryAcquire => trivial
  | newNode => trivial
  | acquired => trivial
  | holding => trivial
  | tryRelease => trivial
  | getHead => trivial
  | unpark thread => trivial
  | released => trivial

theorem Rely.refl {place : Place T} : Rely l l waiting waiting u place :=
  ⟨fun _ h => ⟨h, rfl⟩, fun _ h => ⟨h, rfl⟩, fun _ _ _ _ h => h,
    fun _ hlt hthread => ⟨hlt, hthread, fun h => ⟨h, rfl, rfl⟩⟩, fun _ h => h,
    fun _ _ _ => ⟨rfl, rfl⟩, fun _ _ h => h⟩

/-! ## Writes of one field -/

section Set

variable {field : Field} {v : Option Ref}

theorem Links.field_set_of_ne {g : Field} (h : field ≠ g) :
    (l.set field v).field g = l.field g := by
  rw [Links.field_set, if_neg h.symm]

theorem Known.set (h : Known l n) : Known (l.set field v) n := ⟨h.lt, h.shown⟩

theorem Gone.set (h : Gone l waiting n) : Gone (l.set field v) waiting n :=
  ⟨h.known.set, h.left⟩

theorem Private.set (hn : Private l t n) (hne : field ≠ .next n) : Private (l.set field v) t n :=
  ⟨hn.lt, hn.thread, hn.new, (Links.field_set_of_ne hne).trans hn.next⟩

/-- What a thread relies on is kept if a link of a node is written, other than those of its own node
and, while there is no head, of a node without a thread. -/
theorem Rely.of_set {place : Place T} (hhead : field ≠ .head) (htail : field ≠ .tail)
    (hown : ∀ m, Private l u m → field ≠ .prev m ∧ Private (l.set field v) u m)
    (hwaits : ∀ m, (u, m) ∈ waiting → field ≠ .prev m)
    (hdummy : ∀ d, l.thread d = none → l.head = none → field ≠ .prev d ∧ field ≠ .next d) :
    Rely l (l.set field v) waiting waiting u place := by
  have hhead' : (l.set field v).head = l.head := Links.field_set_of_ne hhead
  have htail' : (l.set field v).tail = l.tail := Links.field_set_of_ne htail
  refine ⟨fun m h => ⟨(hown m h).2, Links.field_set_of_ne (hown m h).1⟩,
    fun m h => ⟨h, Links.field_set_of_ne (hwaits m h)⟩, fun _ _ _ _ h => hhead'.trans h, ?_,
    fun _ hgone => hgone.set, fun _ _ _ => ⟨hhead', htail'⟩, fun _ _ h => hhead'.trans h⟩
  intro d hlt hthread
  refine ⟨hlt, hthread, fun hnone => ?_⟩
  rw [hhead'] at hnone
  obtain ⟨hprev, hnext⟩ := hdummy d hthread hnone
  exact ⟨hnone, Links.field_set_of_ne hprev, Links.field_set_of_ne hnext⟩

theorem Queue.of_set {last : List Ref} (hq : Queue l waiting h last) (htail : field ≠ .tail)
    (hprev : ∀ a ∈ nodesOf waiting ++ h :: last, field ≠ .prev a)
    (hnext : ∀ a ∈ nodesOf waiting ++ [h], ∀ b, (l.set field v).next a = some b →
      b ∈ nodesOf waiting ∧ l.prev b = some a) : Queue (l.set field v) waiting h last := by
  have htail' : (l.set field v).tail = l.tail := Links.field_set_of_ne htail
  refine ⟨?_, htail' ▸ hq.tail, fun a ha b hb => ?_, fun a ha => (hq.known a ha).set⟩
  · exact (leads_congr fun a ha => Links.field_set_of_ne (hprev a ha)).mpr hq.leads
  · obtain ⟨hmem, hback⟩ := hnext a ha b hb
    have hsame : (l.set field v).prev b = l.prev b :=
      Links.field_set_of_ne (hprev b (List.mem_append_left _ hmem))
    exact ⟨hmem, hsame.trans hback⟩

theorem Linked.of_set (hl : Linked l waiting) (hhead : field ≠ .head) (htail : field ≠ .tail)
    (hfresh : ∀ n, l.fresh ≤ n → (l.set field v).prev n = none ∧ (l.set field v).next n = none)
    (hqueue : ∀ h, l.head = some h → ∃ last, Queue (l.set field v) waiting h last) :
    Linked (l.set field v) waiting := by
  have hhead' : (l.set field v).head = l.head := Links.field_set_of_ne hhead
  have htail' : (l.set field v).tail = l.tail := Links.field_set_of_ne htail
  refine ⟨hfresh, hl.queued, hl.nodup, hl.allocated, hl.threads, fun hnone => ?_, fun h hsome => ?_⟩
  · rw [htail']
    exact hl.headless (hhead' ▸ hnone)
  · exact hqueue h (hhead' ▸ hsome)

end Set

/-! ## New nodes -/

section NewNode

variable {thread : Option T}

theorem Known.newNode (h : Known l n) : Known (l.newNode thread) n := by
  refine ⟨Nat.lt_succ_of_lt h.lt, h.shown.imp_right fun hnone => ?_⟩
  rw [Links.thread_newNode, if_neg (Nat.ne_of_lt h.lt)]
  exact hnone

theorem Rely.newNode {place : Place T} :
    Rely l (l.newNode thread) waiting waiting u place where
  owns n h := by
    refine ⟨⟨Nat.lt_succ_of_lt h.lt, ?_, h.new, ?_⟩, ?_⟩
    · rw [Links.thread_newNode, if_neg (Nat.ne_of_lt h.lt)]
      exact h.thread
    · simpa using h.next
    · simp
  waits n h := ⟨h, by simp⟩
  first n p _ _ h := by simpa using h
  dummy d hlt hthread := by
    refine ⟨Nat.lt_succ_of_lt hlt, ?_, fun hhead => ⟨by simpa using hhead, by simp, by simp⟩⟩
    rw [Links.thread_newNode, if_neg (Nat.ne_of_lt hlt)]
    exact hthread
  gone h hgone := ⟨hgone.known.newNode, hgone.left⟩
  starts _ _ _ := by simp
  promotes _ n h := by simpa using h

theorem Linked.newNode (hl : Linked l waiting) : Linked (l.newNode thread) waiting where
  fresh n h := by
    have hfree := hl.fresh n (Nat.le_of_succ_le h)
    simpa using hfree
  queued := hl.queued
  nodup := hl.nodup
  allocated n h := Nat.lt_succ_of_lt (hl.allocated n h)
  threads u n h := by
    have hlt := (hl.known (mem_nodesOf.mpr ⟨u, h⟩)).lt
    rw [Links.thread_newNode, if_neg (Nat.ne_of_lt hlt)]
    exact hl.threads u n h
  headless h := by
    have hnone := hl.headless (by simpa using h)
    exact ⟨by simpa using hnone.1, hnone.2⟩
  queue h hhead := by
    obtain ⟨last, hq⟩ := hl.queue h (by simpa using hhead)
    refine ⟨last, ?_, ?_, ?_, fun a ha => (hq.known a ha).newNode⟩
    · exact (leads_congr fun a _ => by simp).mpr hq.leads
    · simpa using hq.tail
    · simpa using hq.next

/-- The new node is private to its thread. -/
theorem Linked.owns_newNode (hl : Linked l waiting) :
    Private (l.newNode (some t)) t l.fresh where
  lt := Nat.lt_succ_self _
  thread := by simp
  new h := Nat.lt_irrefl _ (hl.allocated _ h)
  next := by simpa using (hl.fresh _ (le_refl _)).2

end NewNode

/-! ## The first head -/

section FirstHead

variable {d : Ref}

theorem Linked.waiting_nil_of_head (hl : Linked l waiting) (hhead : l.head = none) :
    waiting = [] := hl.waiting_nil (hl.headless hhead).1

theorem Rely.setHead {place : Place T} (hl : Linked l waiting) (hhead : l.head = none) :
    Rely l (l.set .head (some d)) waiting waiting u place := by
  have hnil := hl.waiting_nil_of_head hhead
  refine ⟨fun n h => ⟨h.set (by simp), by simp⟩, ?_, ?_, ?_, ?_,
    ?_, ?_⟩
  · exact fun n h => ⟨h, by simp⟩
  · intro n p h
    rw [hnil] at h
    cases h
  · exact fun d hlt hthread => ⟨hlt, hthread, fun h => by simp at h⟩
  · exact fun _ hgone => hgone.set
  · exact fun _ hsome => absurd hhead hsome
  · intro _ n hn
    rw [hhead] at hn
    cases hn

theorem Linked.setHead (hl : Linked l waiting) (hhead : l.head = none) (hlt : d < l.fresh)
    (hthread : l.thread d = none) (hprev : l.prev d = none) (hnext : l.next d = none) :
    Linked (l.set .head (some d)) waiting := by
  have hnil := hl.waiting_nil_of_head hhead
  refine ⟨?_, hl.queued, hl.nodup, hl.allocated, hl.threads, fun h => by simp at h, ?_⟩
  · intro n h
    simpa using hl.fresh n h
  · intro h hsome
    obtain rfl : d = h := by simpa using hsome
    subst hnil
    refine ⟨[], ⟨rfl, ?_⟩, Or.inr ⟨?_, rfl⟩, ?_, ?_⟩
    · simpa using hprev
    · simpa using (hl.headless hhead).1
    · intro a ha b hb
      obtain rfl : a = d := by simpa [nodesOf] using ha
      have hb' : l.next a = some b := by simpa using hb
      rw [hnext] at hb'
      cases hb'
    · intro a ha
      obtain rfl : a = d := by simpa [nodesOf] using ha
      exact ⟨hlt, Or.inr hthread⟩

theorem Rely.setTail {v : Option Ref} {place : Place T} (hplace : ¬ place.Starts) :
    Rely l (l.set .tail v) waiting waiting u place := by
  refine ⟨fun n h => ⟨h.set (by simp), by simp⟩,
    fun n h => ⟨h, by simp⟩, fun n p _ _ h => by simpa using h, ?_, ?_, ?_, ?_⟩
  · exact fun d hlt hthread => ⟨hlt, hthread, fun h => ⟨by simpa using h, by simp, by simp⟩⟩
  · exact fun _ hgone => hgone.set
  · exact fun hstarts => absurd hstarts hplace
  · exact fun _ n hn => by simpa using hn

theorem Linked.setTail {v : Option Ref} (hl : Linked l waiting) (hv : v ≠ none) (hhead : l.head = v)
    (htail : l.tail = none) : Linked (l.set .tail v) waiting := by
  have hnil := hl.waiting_nil htail
  refine ⟨?_, hl.queued, hl.nodup, hl.allocated, hl.threads, ?_, ?_⟩
  · intro n h
    simpa using hl.fresh n h
  · intro h
    have hnone : l.head = none := by simpa using h
    exact absurd (hhead.symm.trans hnone) hv
  · intro h hsome
    have hsome' : l.head = some h := by simpa using hsome
    obtain ⟨last, hq⟩ := hl.queue h hsome'
    subst hnil
    refine ⟨last, ?_, Or.inl ?_, ?_, fun a ha => (hq.known a ha).set⟩
    · exact (leads_congr fun a _ => by simp).mpr hq.leads
    · simpa [nodesOf] using hhead.symm.trans hsome'
    · simpa using hq.next

end FirstHead

/-! ## New waiters -/

section Append

variable {pred : Ref}

theorem Rely.setPrev {place : Place T} (hn : Private l t n) (hl : Linked l waiting) (hut : u ≠ t) :
    Rely l (l.set (.prev n) (some pred)) waiting waiting u place := by
  have hne {m : Ref} (hm : l.thread m = some u) : m ≠ n := by
    rintro rfl
    rw [hn.thread] at hm
    exact hut (Option.some.inj hm).symm
  refine .of_set (by simp) (by simp) (fun m h => ?_) (fun m h => ?_) (fun d hthread _ => ?_)
  · exact ⟨by simpa using (hne h.thread).symm, h.set (by simp)⟩
  · simpa using (hne (hl.threads u m h)).symm
  · have hnd : n ≠ d := by
      rintro rfl
      rw [hn.thread] at hthread
      cases hthread
    simpa using hnd

theorem Linked.setPrev (hl : Linked l waiting) (hn : Private l t n) :
    Linked (l.set (.prev n) (some pred)) waiting := by
  refine hl.of_set (by simp) (by simp) (fun m h => ?_) (fun h hsome => ?_)
  · have hmn : m ≠ n := Ne.symm (Nat.ne_of_lt (Nat.lt_of_lt_of_le hn.lt h))
    simpa [hmn] using hl.fresh m h
  · obtain ⟨last, hq⟩ := hl.queue h hsome
    refine ⟨last, hq.of_set (by simp) (fun a ha => ?_) fun a ha b hb => ?_⟩
    · simpa using hn.ne_of_known (hq.known a ha)
    · exact hq.next a ha b (by simpa using hb)

theorem Rely.append {place : Place T} (hn : Private l t n) (htail : l.tail = some pred) (hut : u ≠ t) :
    Rely l (l.append t n) waiting ((t, n) :: waiting) u place := by
  refine ⟨?_, fun m h => ⟨List.mem_cons_of_mem _ h, by simp⟩, fun m p _ _ h => by simpa using h, ?_,
    ?_, ?_, ?_⟩
  · intro m h
    refine ⟨⟨h.lt, h.thread, ?_, by simpa using h.next⟩, by simp⟩
    intro hmem
    rcases List.mem_cons.mp hmem with rfl | hold
    · have hthread := hn.thread
      rw [h.thread] at hthread
      exact hut (Option.some.inj hthread)
    · exact h.new hold
  · exact fun d hlt hthread => ⟨hlt, hthread, fun h => ⟨by simpa using h, by simp, by simp⟩⟩
  · intro h hgone
    refine ⟨⟨hgone.known.lt, hgone.known.shown.imp_left (List.mem_cons_of_mem _)⟩, ?_⟩
    intro hmem
    rcases List.mem_cons.mp hmem with rfl | hold
    · exact hn.ne_of_known hgone.known rfl
    · exact hgone.left hold
  · intro _ _ hnone
    rw [htail] at hnone
    cases hnone
  · exact fun _ m hm => by simpa using hm

theorem Linked.append (hl : Linked l waiting) (hn : Private l t n) (htail : l.tail = some pred)
    (hprev : l.prev n = some pred) : Linked (l.append t n) ((t, n) :: waiting) := by
  refine ⟨?_, ?_, ?_, ?_, ?_, ?_, ?_⟩
  · intro m h
    simpa using hl.fresh m h
  · exact congrArg (List.cons _) hl.queued
  · exact List.nodup_cons.mpr ⟨hn.new, hl.nodup⟩
  · intro m hm
    rcases List.mem_cons.mp hm with rfl | hold
    · exact hn.lt
    · exact hl.allocated m hold
  · intro v m hm
    rcases List.mem_cons.mp hm with heq | hold
    · cases heq
      exact hn.thread
    · exact hl.threads v m hold
  · intro h
    have hnone := (hl.headless (by simpa using h)).1
    rw [htail] at hnone
    cases hnone
  · intro h hsome
    obtain ⟨last, hq⟩ := hl.queue h (by simpa using hsome)
    have hstart : some pred = (nodesOf waiting ++ [h]).head? := by
      obtain hchain | hempty := hq.tail
      · rw [← hchain, htail]
      · rw [htail] at hempty
        cases hempty.1
    refine ⟨last, ⟨rfl, ?_⟩, ?_, ?_, ?_⟩
    · have hsame : (l.append t n).prev n = (nodesOf waiting ++ [h]).head? := by
        rw [← hstart]
        simpa using hprev
      rw [hsame]
      exact (leads_congr fun a _ => by simp).mpr hq.leads
    · exact Or.inl (by simp [nodesOf])
    · intro a ha b hb
      have hb' : l.next a = some b := by simpa using hb
      rcases List.mem_cons.mp ha with rfl | hold
      · rw [hn.next] at hb'
        cases hb'
      · obtain ⟨hmem, hprev'⟩ := hq.next a hold b hb'
        exact ⟨List.mem_cons_of_mem _ hmem, by simpa using hprev'⟩
    · intro a ha
      rcases List.mem_cons.mp ha with rfl | hold
      · exact ⟨hn.lt, Or.inl List.mem_cons_self⟩
      · exact ⟨(hq.known a hold).lt, (hq.known a hold).shown.imp_left (List.mem_cons_of_mem _)⟩

/-- What the last node of the queue is made to refer to. -/
theorem Rely.setNext {place : Place T} (hl : Linked l waiting) (hn : (t, n) ∈ waiting)
    (hprev : l.prev n = some pred) :
    Rely l (l.set (.next pred) (some n)) waiting waiting u place := by
  have hmem := mem_nodesOf.mpr ⟨t, hn⟩
  obtain ⟨h, last, hhead, -⟩ := hl.exists_queue hmem
  have hpred := hl.known_prev hmem hprev
  refine .of_set (by simp) (by simp) (fun m hm => ?_) (fun m _ => by simp) fun d _ hnone => ?_
  · exact ⟨by simp, hm.set (by simpa using (hm.ne_of_known hpred).symm)⟩
  · rw [hhead] at hnone
    cases hnone

theorem Linked.setNext (hl : Linked l waiting) (hn : (t, n) ∈ waiting)
    (hprev : l.prev n = some pred) : Linked (l.set (.next pred) (some n)) waiting := by
  have hmem := mem_nodesOf.mpr ⟨t, hn⟩
  have hpred := hl.known_prev hmem hprev
  refine hl.of_set (by simp) (by simp) (fun m h => ?_) (fun h hsome => ?_)
  · have hne : m ≠ pred := Ne.symm (Nat.ne_of_lt (Nat.lt_of_lt_of_le hpred.lt h))
    simpa [hne] using hl.fresh m h
  · obtain ⟨last, hq⟩ := hl.queue h hsome
    refine ⟨last, hq.of_set (by simp) (fun a _ => by simp) fun a ha b hb => ?_⟩
    by_cases hap : a = pred
    · subst hap
      obtain rfl : n = b := by simpa using hb
      exact ⟨hmem, hprev⟩
    · exact hq.next a ha b (by simpa [hap] using hb)

end Append

/-! ## A new head -/

section Promote

theorem Rely.promote {place : Place T} (hl : Linked l (waiting ++ [(t, n)]))
    (hprev : l.prev n = some p) (hhead : l.head = some p) (hut : u ≠ t) (hplace : ¬ place.Holds) :
    Rely l (l.promote t n) (waiting ++ [(t, n)]) waiting u place := by
  have hn : (t, n) ∈ waiting ++ [(t, n)] := by simp
  refine ⟨fun m h => ⟨⟨h.lt, h.thread, h.new, by simpa using h.next⟩, by simp⟩, ?_, ?_, ?_, ?_, ?_, ?_⟩
  · intro m hm
    rcases List.mem_append.mp hm with hold | hlast
    · exact ⟨hold, by simp⟩
    · cases List.mem_singleton.mp hlast
      exact absurd rfl hut
  · intro m q hm hq hheadq
    rw [hhead] at hheadq
    cases hheadq
    exact absurd (hl.eq_of_prev hm hn hq hprev).1 hut
  · exact fun d hlt hthread => ⟨hlt, hthread, fun h => by simp at h⟩
  · intro h hgone
    refine ⟨⟨hgone.known.lt, hgone.known.shown⟩, fun hmem => hgone.left ?_⟩
    rw [nodesOf, List.map_append]
    exact List.mem_append_left _ hmem
  · intro _ _ htail
    have hnil := hl.waiting_nil htail
    simp at hnil
  · exact fun hholds => absurd hholds hplace

theorem Linked.promote (hl : Linked l (waiting ++ [(t, n)])) (hprev : l.prev n = some p)
    (hhead : l.head = some p) : Linked (l.promote t n) waiting := by
  have hn : (t, n) ∈ waiting ++ [(t, n)] := by simp
  refine ⟨?_, ?_, hl.nodup, hl.allocated, ?_, fun h => by simp at h, ?_⟩
  · intro m h
    simpa using hl.fresh m h
  · exact hl.queued.trans (List.append_cons _ _ _).symm
  · exact fun v m hm => hl.threads v m (List.mem_append_left _ hm)
  · intro h hsome
    obtain rfl : n = h := by simpa using hsome
    obtain ⟨last, hq⟩ := hl.queue p hhead
    have hnodes : nodesOf (waiting ++ [(t, n)]) = nodesOf waiting ++ [n] := by simp [nodesOf]
    have hlist : nodesOf (waiting ++ [(t, n)]) ++ p :: last = nodesOf waiting ++ n :: p :: last := by
      rw [hnodes, List.append_assoc, List.singleton_append]
    have hstart : (nodesOf (waiting ++ [(t, n)]) ++ [p]).head? = (nodesOf waiting ++ [n]).head? := by
      rw [hnodes]
      cases nodesOf waiting <;> rfl
    refine ⟨p :: last, ?_, ?_, ?_, ?_⟩
    · rw [← hlist, ← hstart]
      exact (leads_congr fun a _ => by simp).mpr hq.leads
    · rw [← hstart]
      obtain hsome' | hnone := hq.tail
      · exact Or.inl (by simpa using hsome')
      · simp at hnone
    · intro a ha b hb
      rw [← hnodes] at ha
      obtain ⟨hmem, hprev'⟩ := hq.next a (List.mem_append_left _ ha) b (by simpa using hb)
      refine ⟨?_, by simpa using hprev'⟩
      rw [hnodes] at hmem
      rcases List.mem_append.mp hmem with hold | hlast
      · exact hold
      · -- the first node is led to by no node of the queue
        obtain rfl := List.mem_singleton.mp hlast
        obtain rfl : a = p := Option.some.inj (hprev'.symm.trans hprev)
        exact absurd ha hq.head_notMem
    · intro a ha
      rw [← hlist] at ha
      exact ⟨(hq.known a ha).lt, (hq.known a ha).shown⟩

theorem Rely.clearThread {place : Place T} (hl : Linked l waiting) (hhead : l.head = some n) :
    Rely l (l.clearThread n) waiting waiting u place := by
  obtain ⟨last, hq⟩ := hl.queue n hhead
  have hnone {m : Ref} (hm : l.thread m = none) : (l.clearThread n).thread m = none := by
    simp [hm]
  refine ⟨?_, fun m h => ⟨h, rfl⟩, fun _ _ _ _ h => h, ?_, ?_, fun _ _ _ => ⟨rfl, rfl⟩,
    fun _ _ h => h⟩
  · intro m hm
    have hne := hm.ne_of_known hq.gone.known
    refine ⟨⟨hm.lt, ?_, hm.new, hm.next⟩, rfl⟩
    rw [Links.thread_clearThread, if_neg hne]
    exact hm.thread
  · exact fun d hlt hthread => ⟨hlt, hnone hthread, fun h => ⟨h, rfl, rfl⟩⟩
  · exact fun h hgone => ⟨⟨hgone.known.lt, hgone.known.shown.imp_right hnone⟩, hgone.left⟩

theorem Linked.clearThread (hl : Linked l waiting) (hhead : l.head = some n) :
    Linked (l.clearThread n) waiting := by
  refine ⟨hl.fresh, hl.queued, hl.nodup, hl.allocated, ?_, hl.headless, ?_⟩
  · intro v m hm
    obtain ⟨last, hq⟩ := hl.queue n hhead
    have hne : m ≠ n := by
      rintro rfl
      exact hq.head_notMem (mem_nodesOf.mpr ⟨v, hm⟩)
    rw [Links.thread_clearThread, if_neg hne]
    exact hl.threads v m hm
  · intro h hsome
    obtain ⟨last, hq⟩ := hl.queue h hsome
    refine ⟨last, hq.leads, hq.tail, hq.next, fun a ha => ⟨(hq.known a ha).lt, ?_⟩⟩
    exact (hq.known a ha).shown.imp_right fun hnone => by simp [hnone]

theorem Rely.clearPrev {place : Place T} (hl : Linked l waiting) (hhead : l.head = some n) :
    Rely l (l.set (.prev n) none) waiting waiting u place := by
  obtain ⟨last, hq⟩ := hl.queue n hhead
  refine .of_set (by simp) (by simp) (fun m hm => ?_) (fun m hm => ?_) fun d _ hnone => ?_
  · exact ⟨by simpa using (hm.ne_of_known hq.gone.known).symm, hm.set (by simp)⟩
  · have hne : n ≠ m := by
      rintro rfl
      exact hq.head_notMem (mem_nodesOf.mpr ⟨u, hm⟩)
    simpa using hne
  · rw [hhead] at hnone
    cases hnone

theorem Linked.clearPrev (hl : Linked l waiting) (hhead : l.head = some n) :
    Linked (l.set (.prev n) none) waiting := by
  obtain ⟨last, hq⟩ := hl.queue n hhead
  have hne {a : Ref} (ha : a ∈ nodesOf waiting) : a ≠ n := by
    rintro rfl
    exact hq.head_notMem ha
  refine hl.of_set (by simp) (by simp) (fun m h => ?_) (fun h hsome => ?_)
  · have hfree := hl.fresh m h
    by_cases hmn : m = n
    · simpa [hmn] using (hmn ▸ hfree).2
    · simpa [hmn] using hfree
  · obtain rfl : n = h := Option.some.inj (hhead.symm.trans hsome)
    refine ⟨[], ?_, ?_, ?_, ?_⟩
    · obtain ⟨q, hnodes, rfl, -⟩ := leads_append.mp hq.leads
      refine leads_append.mpr ⟨some n, ?_, rfl, by simp⟩
      exact (leads_congr fun a ha => by simp [hne ha]).mpr hnodes
    · simpa using hq.tail
    · intro a ha b hb
      obtain ⟨hmem, hprev⟩ := hq.next a ha b (by simpa using hb)
      exact ⟨hmem, by simpa [hne hmem] using hprev⟩
    · intro a ha
      have ha' : a ∈ nodesOf waiting ++ n :: last := by
        rw [List.append_cons]
        exact List.mem_append_left _ ha
      exact ⟨(hq.known a ha').lt, (hq.known a ha').shown⟩

theorem Rely.clearNext {place : Place T} (hhead : l.head ≠ none) :
    Rely l (l.set (.next p) none) waiting waiting u place := by
  refine .of_set (by simp) (by simp) (fun m hm => ⟨by simp, hm.lt, hm.thread, hm.new, ?_⟩)
    (fun m _ => by simp) fun d _ hnone => absurd hnone hhead
  simpa using fun _ => hm.next

theorem Linked.clearNext (hl : Linked l waiting) : Linked (l.set (.next p) none) waiting := by
  refine hl.of_set (by simp) (by simp) (fun m h => ?_) (fun h hsome => ?_)
  · have hfree := hl.fresh m h
    exact ⟨by simpa using hfree.1, by simpa using fun _ => hfree.2⟩
  · obtain ⟨last, hq⟩ := hl.queue h hsome
    refine ⟨last, hq.of_set (by simp) (fun a _ => by simp) fun a ha b hb => ?_⟩
    by_cases hap : a = p
    · simp [hap] at hb
    · exact hq.next a ha b (by simpa [hap] using hb)

end Promote

/-! ## Moves -/

section Moves

variable {x x' : Shared T} {place place' : Place T}

theorem Adding.Reads.knows {a a' : Adding} (hr : a.Reads x a') (hn : a.Knows x.links n) :
    a'.Knows x.links n := by
  cases hr with
  | readsHead => exact ⟨hn.1, rfl, hn.2⟩
  | readsTail h => trivial
  | readsNoTail h => trivial
  | again => trivial
  | enqReadsTail h => trivial
  | enqReadsNoTail h => trivial
  | headFails h => trivial
  | tailFails h => trivial

theorem Waiting.Reads.knows {w w' : Waiting} (hr : w.Reads x n w') (hn : w.Knows x.links n) :
    w'.Knows x.links n := by
  cases hr with
  | again => trivial
  | readsPrev h => exact h
  | atHead h => exact ⟨hn, h⟩
  | notAtHead h => exact hn
  | fails h => exact hn.1
  | signalled h => exact hn
  | unsignalled h => exact hn
  | statusFails h => trivial
  | goesOn => trivial

theorem Place.Reads.knows (hr : place.Reads x place') (hl : Linked x.links waiting)
    (hk : Knows x.links waiting t place) : Knows x.links waiting t place' := by
  cases hr with
  | adding h => exact ⟨hk.1, h.knows hk.2⟩
  | waiting h => exact ⟨hk.1, h.knows hk.2⟩
  | readsHead h =>
    obtain ⟨last, hq⟩ := hl.queue _ h
    exact hq.gone
  | signalled h => exact hk
  | waking h => exact hk
  | calls => trivial
  | fails h => trivial
  | returns => trivial
  | callsRelease => trivial
  | readsNoHead h => trivial
  | unsignalled h => trivial
  | findsNone h => trivial
  | readsThread => trivial
  | unparksNone => trivial
  | returnsRelease => trivial

theorem Place.Reads.waits (hr : place.Reads x place') (h : place.Waits n) : place'.Waits n := by
  cases hr with
  | waiting hw => exact h
  | _ => exact h.elim

/-- A step of a thread at the place, as far as the queue is concerned. -/
structure Stepped (l l' : Links T) (waiting waiting' : List (T × Ref)) (t : T)
    (place place' : Place T) : Prop where
  linked : Linked l' waiting'
  rely : ∀ u ≠ t, ∀ q : Place T, (q.Starts → ¬ place.Starts) → (q.Holds → ¬ place.Holds) →
    Rely l l' waiting waiting' u q
  knows : Knows l' waiting' t place'
  waits : ∀ n, (t, n) ∈ waiting' → place'.Waits n
  others : ∀ u ≠ t, ∀ n, (u, n) ∈ waiting' → (u, n) ∈ waiting

theorem Stepped.of_same (hl : Linked l waiting) (hk : Knows l waiting t place')
    (hw : ∀ n, (t, n) ∈ waiting → place'.Waits n) : Stepped l l waiting waiting t place place' :=
  ⟨hl, fun _ _ _ _ _ => .refl, hk, hw, fun _ _ _ h => h⟩

/-- A thread waits with one node, once. -/
theorem Linked.notMem_of_concat (hl : Linked l (waiting ++ [(t, n)])) : (t, n) ∉ waiting := by
  intro hmem
  have hnodup := hl.nodup
  rw [hl.queued, nodesOf, List.map_append] at hnodup
  have hinit := hnodup.of_append_left
  rw [List.map_append] at hinit
  exact List.disjoint_of_nodup_append hinit (List.mem_map.mpr ⟨_, hmem, rfl⟩) (by simp)

section Steps

variable {node pred d : Ref}

theorem Stepped.creates (hl : Linked l waiting) (hw : ∀ n, (t, n) ∉ waiting) :
    Stepped l (l.newNode (some t)) waiting waiting t place (.adding l.fresh .readTail) :=
  ⟨hl.newNode, fun _ _ _ _ _ => .newNode, ⟨hl.owns_newNode, trivial⟩,
    fun n hn => absurd hn (hw n), fun _ _ _ h => h⟩

theorem Stepped.createsHead (hl : Linked l waiting) (hn : Private l t node)
    (hw : ∀ n, (t, n) ∉ waiting) :
    Stepped l (l.newNode none) waiting waiting t place (.adding node (.casHead l.fresh)) := by
  have hrely : Rely l (l.newNode none) waiting waiting t place := .newNode
  refine ⟨hl.newNode, fun _ _ _ _ _ => .newNode, ⟨(hrely.owns node hn).1, ?_⟩,
    fun n hn => absurd hn (hw n), fun _ _ _ h => h⟩
  exact ⟨Nat.lt_succ_self _, by simp, fun _ => by simpa using hl.fresh _ (le_refl _)⟩

theorem Stepped.setsHead (hl : Linked l waiting) (hhead : l.head = none) (hn : Private l t node)
    (hk : (Adding.casHead d).Knows l node) (hw : ∀ n, (t, n) ∉ waiting) :
    Stepped l (l.set .head (some d)) waiting waiting t place (.adding node .getHead) := by
  obtain ⟨hlt, hthread, hfree⟩ := hk
  refine ⟨hl.setHead hhead hlt hthread (hfree hhead).1 (hfree hhead).2,
    fun _ _ _ _ _ => .setHead hl hhead, ⟨hn.set (by simp), ?_⟩, fun n hn => absurd hn (hw n),
    fun _ _ _ h => h⟩
  exact ⟨by simp, by simpa using (hl.headless hhead).1⟩

theorem Stepped.setsTail {v : Option Ref} (hl : Linked l waiting) (hn : Private l t node)
    (hk : (Adding.setTail v).Knows l node) (hw : ∀ n, (t, n) ∉ waiting) :
    Stepped l (l.set .tail v) waiting waiting t (.adding node (.setTail v)) (.adding node .loop) := by
  obtain ⟨hv, hhead, htail⟩ := hk
  exact ⟨hl.setTail hv hhead htail, fun _ _ q hstarts _ => .setTail fun hq => hstarts hq trivial,
    ⟨hn.set (by simp), trivial⟩, fun n hn => absurd hn (hw n), fun _ _ _ h => h⟩

theorem Stepped.setsPrev (hl : Linked l waiting) (hn : Private l t node)
    (hw : ∀ n, (t, n) ∉ waiting) : Stepped l (l.set (.prev node) (some pred)) waiting waiting t
      place (.adding node (.casTail pred)) := by
  refine ⟨hl.setPrev hn, fun u hut _ _ _ => .setPrev hn hl hut, ⟨hn.set (by simp), ?_⟩,
    fun n hn => absurd hn (hw n), fun _ _ _ h => h⟩
  simp [Adding.Knows]

theorem Stepped.appends (hl : Linked l waiting) (htail : l.tail = some pred)
    (hn : Private l t node) (hprev : l.prev node = some pred) (hw : ∀ n, (t, n) ∉ waiting) :
    Stepped l (l.append t node) waiting ((t, node) :: waiting) t place
      (.waiting node (.setNext pred)) := by
  refine ⟨hl.append hn htail hprev, fun u hut _ _ _ => .append hn htail hut,
    ⟨List.mem_cons_self, ?_⟩, ?_, ?_⟩
  · simpa [Waiting.Knows] using hprev
  · intro n hmem
    rcases List.mem_cons.mp hmem with heq | hold
    · cases heq
      rfl
    · exact absurd hold (hw n)
  · intro u hut n hmem
    rcases List.mem_cons.mp hmem with heq | hold
    · cases heq
      exact absurd rfl hut
    · exact hold

theorem Stepped.promotes (hl : Linked l waiting)
    (hk : Knows l waiting t (.promoting node p .setHead))
    (hw : ∀ n, (t, n) ∈ waiting → node = n) : ∃ waiting',
      Stepped l (l.promote t node) waiting waiting' t (.promoting node p .setHead)
        (.promoting node p .setThread) := by
  obtain ⟨hn, hprev, hhead⟩ := hk
  obtain ⟨last, hq⟩ := hl.queue p hhead
  obtain ⟨before, rfl⟩ := hq.first hn hprev
  refine ⟨before, hl.promote hprev hhead,
    fun u hut q _ hholds => .promote hl hprev hhead hut fun hq => hholds hq trivial, ?_, ?_,
    fun u _ n hmem => List.mem_append_left _ hmem⟩
  · simp [Knows]
  · intro n hmem
    obtain rfl := hw n (List.mem_append_left _ hmem)
    exact absurd hmem hl.notMem_of_concat

theorem Stepped.clearsPrev (hl : Linked l waiting) (hhead : l.head = some node)
    (hw : ∀ n, (t, n) ∉ waiting) : Stepped l (l.set (.prev node) none) waiting waiting t place
      (.promoting node p .setNext) := by
  refine ⟨hl.clearPrev hhead, fun _ _ _ _ _ => .clearPrev hl hhead, ?_,
    fun n hn => absurd hn (hw n), fun _ _ _ h => h⟩
  simpa [Knows] using hhead

end Steps

variable [DecidableEq T]

theorem Moves.stepped (hm : Moves t x place x' place') (hl : Linked x.links waiting)
    (hk : Knows x.links waiting t place) (hw : ∀ n, (t, n) ∈ waiting → place.Waits n) :
    ∃ waiting', Stepped x.links x'.links waiting waiting' t place place' := by
  cases hm with
  | reads h => exact ⟨waiting, .of_same hl (h.knows hl hk) fun n hn => h.waits (hw n hn)⟩
  | acquires h => exact ⟨waiting, .of_same hl trivial fun n hn => (hw n hn).elim⟩
  | releases => exact ⟨waiting, .of_same hl trivial fun n hn => (hw n hn).elim⟩
  | unparks => exact ⟨waiting, .of_same hl trivial fun n hn => (hw n hn).elim⟩
  | resets => exact ⟨waiting, .of_same hl hk fun n hn => (hw n hn).elim⟩
  | parks h => exact ⟨waiting, .of_same hl ⟨hk.1, trivial⟩ hw⟩
  | signals => exact ⟨waiting, .of_same hl ⟨hk.1, trivial⟩ hw⟩
  | wins h => exact ⟨waiting, .of_same hl ⟨hk.1, hk.2.1, hk.2.2⟩ hw⟩
  | creates => exact ⟨waiting, .creates hl hw⟩
  | createsHead => exact ⟨waiting, .createsHead hl hk.1 hw⟩
  | setsHead hhead => exact ⟨waiting, .setsHead hl hhead hk.1 hk.2 hw⟩
  | setsTail => exact ⟨waiting, .setsTail hl hk.1 hk.2 hw⟩
  | setsPrev => exact ⟨waiting, .setsPrev hl hk.1 hw⟩
  | appends h => exact ⟨_, .appends hl h hk.1 hk.2 hw⟩
  | setsNext =>
    exact ⟨waiting, hl.setNext hk.1 hk.2, fun _ _ _ _ _ => .setNext hl hk.1 hk.2,
      ⟨hk.1, trivial⟩, hw, fun _ _ _ h => h⟩
  | promotes => exact Stepped.promotes hl hk hw
  | clearsThread =>
    exact ⟨waiting, hl.clearThread hk, fun _ _ _ _ _ => .clearThread hl hk, hk,
      fun n hn => (hw n hn).elim, fun _ _ _ h => h⟩
  | clearsPrev => exact ⟨waiting, .clearsPrev hl hk hw⟩
  | clearsNext =>
    have hhead : x.links.head ≠ none := fun hnone => by
      rw [show x.links.head = some _ from hk] at hnone
      cases hnone
    exact ⟨waiting, hl.clearNext, fun _ _ _ _ _ => .clearNext hhead, trivial,
      fun n hn => (hw n hn).elim, fun _ _ _ h => h⟩

end Moves

end BigPlan.QueuedSynchronizer.Exclusive
