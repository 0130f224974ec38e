import BigPlan.Lib.Traversal
import BigPlan.Lock.ConditionQueue

/-!
# Looking at the queue

The methods that tell what the queue of a synchronizer holds, from the tail over `prev` to its end,
or from the head over `next`. A thread that no other one disturbs is told the threads of the nodes,
in the order from the tail.
-/
namespace BigPlan.QueuedSynchronizer

open Lib Lib.Chain Program Node

variable {T : Type}

/-! ## The methods -/

def hasQueuedThreads : Method T Bool := do
  let head ← get .head
  let tail ← get .tail
  return head ≠ tail

def hasContended : Method T Bool := do
  let head ← get .head
  return head ≠ none

/-- `for (Node p = tail; p != null; p = p.prev)`, with what is done with each node. -/
def forFromTail {β : Type} (turn : Ref → β → Method T β) (init : β) : Method T β := do
  let t ← get .tail
  forever (fun (t, b) =>
    match t with
    | none => return .inr b
    | some p => do
      let b ← turn p b
      let prev ← get (.prev p)
      return .inl (prev, b)) (t, init)

/-- `(s = h.next) != null && s.prev == head && (st = s.thread) != null`, after `(h = head) != null`. -/
def firstBehind : Option Ref → Method T (Option T)
  | none => return none
  | some h => do
    let s ← get (.next h)
    match s with
    | none => return none
    | some s => do
      let prev ← get (.prev s)
      let head ← get .head
      if prev = head then getThread s else return none

/-- A turn of the loop in `fullGetFirstQueuedThread`. -/
def firstQueuedTurn : Option Ref × Option T → Method T ((Option Ref × Option T) ⊕ Option T)
  | (none, firstThread) => return .inr firstThread
  | (some t, firstThread) => do
    let head ← get .head
    if some t = head then return .inr firstThread
    else do
      let tt ← getThread t
      let prev ← get (.prev t)
      return .inl (prev, tt.or firstThread)

def fullGetFirstQueuedThread : Method T (Option T) := do
  let h ← get .head
  match ← firstBehind h with
  | some st => return some st
  | none => do
    let h ← get .head
    match ← firstBehind h with
    | some st => return some st
    | none => do
      let t ← get .tail
      forever firstQueuedTurn (t, none)

def getFirstQueuedThread : Method T (Option T) := do
  let head ← get .head
  let tail ← get .tail
  if head = tail then return none else fullGetFirstQueuedThread

/-- A turn of the loop in `isQueued`. -/
def isQueuedTurn [DecidableEq T] (thread : T) : Option Ref → Method T (Option Ref ⊕ Bool)
  | none => return .inr false
  | some p => do
    let pt ← getThread p
    if pt = some thread then return .inr true
    else do
      let prev ← get (.prev p)
      return .inl prev

def isQueued [DecidableEq T] : Option T → Method T Bool
  | none => throw .nullPointer
  | some thread => do
    let p ← get .tail
    forever (isQueuedTurn thread) p

/-- `(s = h.next) == null || s.thread != Thread.currentThread()`. -/
def behindIsOther [DecidableEq T] (currentThread : T) (h : Ref) : Method T Bool := do
  let s ← get (.next h)
  match s with
  | none => return true
  | some s => do
    let thread ← getThread s
    return thread ≠ some currentThread

def hasQueuedPredecessors [DecidableEq T] (currentThread : T) : Method T Bool := do
  let t ← get .tail
  let h ← get .head
  if h ≠ t then do
    let h ← deref h
    behindIsOther currentThread h
  else return false

/-- The source counts in an `int`, which is the same: each node counted has a thread of its own, and
there are fewer than 2^31 threads. -/
def getQueueLength : Method T ℕ :=
  forFromTail (fun p n => do
    let thread ← getThread p
    return if thread.isSome then n + 1 else n) 0

/-- `Thread t = p.thread; if (t != null) { list.add(t); }`. -/
def addThread (p : Ref) (list : List T) : Method T (List T) := do
  let t ← getThread p
  return list ++ t.toList

def getQueuedThreads : Method T (List T) := forFromTail addThread []

def getExclusiveQueuedThreads : Method T (List T) :=
  forFromTail (fun p list => do
    if ← isShared p then return list else addThread p list) []

def getSharedQueuedThreads : Method T (List T) :=
  forFromTail (fun p list => do
    if ← isShared p then addThread p list else return list) []

/-! ## What they tell -/

namespace Memory

def prev (m : Memory T) (a : Ref) : Option Ref := m.field (.prev a)

/-- The threads of the nodes. -/
def threads (m : Memory T) (l : List Ref) : List T := l.filterMap m.thread

theorem threads_cons (m : Memory T) (a : Ref) (l : List Ref) :
    m.threads (a :: l) = (m.thread a).toList ++ m.threads l := by
  cases ha : m.thread a with
  | none => simp [threads, ha]
  | some u => simp [threads, ha]

theorem threads_append (m : Memory T) (l l' : List Ref) :
    m.threads (l ++ l') = m.threads l ++ m.threads l' := List.filterMap_append

def isShared (m : Memory T) (a : Ref) : Bool := m.field (.nextWaiter a) = some SHARED

end Memory

variable [DecidableEq T] {t : T} {input : Input} {m : Memory T} {l : List Ref}

/-- The method returns the value, and changes nothing. -/
def Tells (t : T) (input : Input) (m : Memory T) {α : Type} (method : Method T α) (a : α) : Prop :=
  Runs t input m method m a

theorem tells_forFromTail {β : Type} {turn : Ref → β → Method T β} {f : β → Ref → β}
    (h : Leads m.prev (m.field .tail) l none)
    (hturn : ∀ a b, Tells t input m (turn a b) (f b a)) (init : β) :
    Tells t input m (forFromTail turn init) (l.foldl f init) := by
  refine returns_then returns_lift ?_
  refine returns_forever_foldl (g := id) h (fun b => returns_pure) (fun a _ b => ?_) init
  exact returns_then (hturn a b) (returns_then returns_lift returns_pure)

theorem tells_addThread (a : Ref) (list : List T) :
    Tells t input m (addThread a list) (list ++ (m.thread a).toList) :=
  returns_then returns_lift returns_pure

theorem tells_isShared (a : Ref) : Tells t input m (isShared a) (m.isShared a) :=
  returns_then returns_lift returns_pure

omit [DecidableEq T] in
theorem foldl_addThread (l : List Ref) :
    l.foldl (fun list a => list ++ (m.thread a).toList) [] = m.threads l := by
  rw [List.foldl_append_eq_append, List.nil_append, Memory.threads, List.filterMap_eq_flatMap_toList,
    List.flatMap_def]

theorem tells_getQueuedThreads (h : Leads m.prev (m.field .tail) l none) :
    Tells t input m getQueuedThreads (m.threads l) := by
  rw [← foldl_addThread]
  exact tells_forFromTail h tells_addThread []

theorem tells_getExclusiveQueuedThreads (h : Leads m.prev (m.field .tail) l none) :
    Tells t input m getExclusiveQueuedThreads (m.threads (l.filter fun a => !m.isShared a)) := by
  rw [← foldl_addThread, List.foldl_filter]
  refine tells_forFromTail h (fun a b => returns_then (tells_isShared a) ?_) []
  cases m.isShared a with
  | true => exact returns_pure
  | false => exact tells_addThread a b

theorem tells_getSharedQueuedThreads (h : Leads m.prev (m.field .tail) l none) :
    Tells t input m getSharedQueuedThreads (m.threads (l.filter m.isShared)) := by
  rw [← foldl_addThread, List.foldl_filter]
  refine tells_forFromTail h (fun a b => returns_then (tells_isShared a) ?_) []
  cases m.isShared a with
  | true => exact tells_addThread a b
  | false => exact returns_pure

theorem tells_getQueueLength (h : Leads m.prev (m.field .tail) l none) :
    Tells t input m getQueueLength (m.threads l).length := by
  have hcount (l : List Ref) (n : ℕ) :
      l.foldl (fun n a => if (m.thread a).isSome then n + 1 else n) n =
        n + (m.threads l).length := by
    induction l generalizing n with
    | nil => rfl
    | cons a l ih =>
      rw [List.foldl_cons, ih, Memory.threads_cons, List.length_append]
      cases m.thread a with
      | none =>
        simp
      | some thread =>
        simp
        omega
  have hcounted := hcount l 0
  rw [Nat.zero_add] at hcounted
  rw [← hcounted]
  exact tells_forFromTail h (fun a b => returns_then returns_lift returns_pure) 0

theorem tells_hasQueuedThreads :
    Tells t input m hasQueuedThreads (m.field .head ≠ m.field .tail) :=
  returns_then returns_lift (returns_then returns_lift returns_pure)

theorem tells_isQueued (h : Leads m.prev (m.field .tail) l none) (thread : T) :
    Tells t input m (isQueued (some thread)) (thread ∈ m.threads l) := by
  have hloop : Tells t input m (forever (isQueuedTurn thread) (m.field .tail))
      ((l.find? fun a => m.thread a = some thread).elim false fun _ => true) := by
    refine returns_forever_find h returns_pure (fun a _ ha => ?_) fun a _ ha => ?_
    · refine returns_then returns_lift ?_
      change Returns _ m (if m.thread a = some thread then _ else _) _ _
      rw [if_pos ha]
      exact returns_pure
    · refine returns_then returns_lift ?_
      change Returns _ m (if m.thread a = some thread then _ else _) _ _
      rw [if_neg ha]
      exact returns_then returns_lift returns_pure
  have hfound : ((l.find? fun a => m.thread a = some thread).elim false fun _ => true) =
      decide (thread ∈ m.threads l) := by
    cases hfind : l.find? fun a => decide (m.thread a = some thread) with
    | none => 
      have hnone := List.find?_eq_none.mp hfind
      simpa [Memory.threads] using hnone
    | some a => 
      have ha := List.find?_some hfind
      simpa [Memory.threads] using ⟨a, List.mem_of_find?_eq_some hfind, of_decide_eq_true ha⟩
  rw [hfound] at hloop
  exact returns_then returns_lift hloop

/-! ### The first thread -/

variable {h : Ref} {v : Option T}

/-- The thread of the node that the head refers to, if that refers back to it. -/
theorem tells_firstBehind (hhead : m.field .head = some h) :
    Tells t input m (firstBehind (some h)) ((m.field (.next h)).bind fun s =>
      if m.prev s = some h then m.thread s else none) := by
  refine returns_then returns_lift ?_
  change Returns _ m (match m.field (.next h) with | none => _ | some s => _) _ _
  cases m.field (.next h) with
  | none => exact returns_pure
  | some s =>
    refine returns_then returns_lift (returns_then returns_lift ?_)
    change Returns _ m (if m.prev s = m.field .head then _ else _) _ _
    rw [hhead, Option.bind_some]
    by_cases hback : m.prev s = some h
    · rw [if_pos hback, if_pos hback]
      exact returns_lift
    · rw [if_neg hback, if_neg hback]
      exact returns_pure

/-- The loop ends at the head, if there is one on the way, with the last thread that it has met. -/
theorem tells_firstQueuedTurn {p q : Option Ref} (hleads : Leads m.prev p l q)
    (hhead : m.field .head = some h) (hq : q = some h ∨ q = none) (hl : h ∉ l) :
    Tells t input m (forever firstQueuedTurn (p, v)) ((m.threads l).getLast?.or v) := by
  induction l generalizing p v with
  | nil =>
    obtain rfl : p = q := hleads
    obtain rfl | rfl := hq
    · refine returns_forever_inr (returns_then returns_lift ?_)
      change Returns _ m (if some h = m.field .head then _ else _) _ _
      rw [if_pos hhead.symm]
      exact returns_pure
    · exact returns_forever_inr returns_pure
  | cons a l ih =>
    obtain ⟨rfl, hrest⟩ := hleads
    have hne : some a ≠ m.field .head := by
      rw [hhead]
      rintro ⟨⟩
      exact hl List.mem_cons_self
    have hturn : Tells t input m (firstQueuedTurn (some a, v))
        (.inl (m.prev a, (m.thread a).or v)) := by
      refine returns_then returns_lift ?_
      change Returns _ m (if some a = m.field .head then _ else _) _ _
      rw [if_neg hne]
      exact returns_then returns_lift (returns_then returns_lift returns_pure)
    have hlast : (m.threads (a :: l)).getLast?.or v =
        (m.threads l).getLast?.or ((m.thread a).or v) := by
      rw [Memory.threads_cons, List.getLast?_append, Option.or_assoc]
      cases m.thread a with
      | none => rfl
      | some u => rfl
    rw [hlast]
    exact returns_forever_inl hturn (ih hrest fun hmem => hl (List.mem_cons_of_mem a hmem))

/-- What stands behind the head is told only if it is the thread of the first node. -/
theorem exists_tells_firstBehind (hhead : m.field .head = some h)
    (hnext : ∀ s, m.field (.next h) = some s → l.getLast? = some s) : ∃ b,
      Tells t input m (firstBehind (some h)) b ∧ ∀ u, b = some u → (m.threads l).getLast? = some u := by
  refine ⟨_, tells_firstBehind hhead, fun u hu => ?_⟩
  obtain ⟨s, hs, hback⟩ := Option.bind_eq_some_iff.mp hu
  obtain ⟨xs, rfl⟩ := List.getLast?_eq_some_iff.mp (hnext s hs)
  have hthread : m.thread s = some u := by
    split at hback
    · exact hback
    · cases hback
  simp [Memory.threads, hthread]

theorem tells_getFirstQueuedThread_of_eq (h : m.field .head = m.field .tail) :
    Tells t input m getFirstQueuedThread none := by
  refine returns_then returns_lift (returns_then returns_lift ?_)
  change Returns _ m (if m.field .head = m.field .tail then _ else _) _ _
  rw [if_pos h]
  exact returns_pure

theorem tells_getFirstQueuedThread {q : Option Ref} (hl : Leads m.prev (m.field .tail) l q)
    (hhead : m.field .head = some h) (hq : q = some h ∨ q = none) (hnot : h ∉ l)
    (hnext : ∀ s, m.field (.next h) = some s → l.getLast? = some s) :
    Tells t input m getFirstQueuedThread (m.threads l).getLast? := by
  obtain ⟨b, hbehind, hfirst⟩ : ∃ b, Tells t input m (firstBehind (some h)) b ∧
      ∀ u, b = some u → (m.threads l).getLast? = some u := exists_tells_firstBehind hhead hnext
  by_cases hsame : m.field .head = m.field .tail
  · have hnil : l = [] := by
      cases l with
      | nil => rfl
      | cons a l =>
        rw [hhead, hl.1] at hsame
        cases hsame
        exact absurd List.mem_cons_self hnot
    subst hnil
    exact tells_getFirstQueuedThread_of_eq hsame
  · refine returns_then returns_lift (returns_then returns_lift ?_)
    change Returns _ m (if m.field .head = m.field .tail then _ else _) _ _
    rw [if_neg hsame]
    refine returns_then returns_lift ?_
    change Returns _ m (firstBehind (m.field .head) >>= _) _ _
    rw [hhead]
    refine returns_then hbehind ?_
    cases b with
    | some u =>
      rw [hfirst u rfl]
      exact returns_pure
    | none =>
      refine returns_then returns_lift ?_
      change Returns _ m (firstBehind (m.field .head) >>= _) _ _
      rw [hhead]
      refine returns_then hbehind (returns_then returns_lift ?_)
      have hloop : Tells t input m (forever firstQueuedTurn (m.field .tail, none))
          ((m.threads l).getLast?.or none) := tells_firstQueuedTurn hl hhead hq hnot
      rw [Option.or_none] at hloop
      exact hloop

/-! ### The threads before this one -/

theorem tells_behindIsOther (u : T) : Tells t input m (behindIsOther u h)
    ((m.field (.next h)).bind m.thread ≠ some u) := by
  refine returns_then returns_lift ?_
  change Returns _ m (match m.field (.next h) with | none => _ | some s => _) _ _
  cases m.field (.next h) with
  | none => exact returns_pure
  | some s => exact returns_then returns_lift returns_pure

theorem tells_hasQueuedPredecessors_of_eq (h : m.field .head = m.field .tail) (u : T) :
    Tells t input m (hasQueuedPredecessors u) false := by
  refine returns_then returns_lift (returns_then returns_lift ?_)
  change Returns _ m (if m.field .head ≠ m.field .tail then
    (deref (m.field .head) >>= behindIsOther u : Method T Bool) else _) _ _
  rw [if_neg (not_not.mpr h)]
  exact returns_pure

theorem tells_hasQueuedPredecessors (hhead : m.field .head = some h) (u : T) :
    Tells t input m (hasQueuedPredecessors u)
      (m.field .tail ≠ some h ∧ (m.field (.next h)).bind m.thread ≠ some u) := by
  refine returns_then returns_lift (returns_then returns_lift ?_)
  change Returns _ m (if m.field .head ≠ m.field .tail then
    (deref (m.field .head) >>= behindIsOther u : Method T Bool) else _) _ _
  rw [hhead]
  by_cases htail : m.field .tail = some h
  · simp only [htail, ne_eq, not_true_eq_false, false_and, decide_false, if_false]
    exact returns_pure
  · rw [if_pos (Ne.symm htail)]
    simp only [htail, ne_eq, not_false_eq_true, true_and]
    exact returns_then returns_pure (tells_behindIsOther u)

end BigPlan.QueuedSynchronizer
