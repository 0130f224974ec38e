import BigPlan.Lock.Inspection
import BigPlan.Lock.Situation

/-!
# What a thread sees of the queue

In every state of a run of the lock the methods that look at the queue tell the threads that wait
with their nodes, in their order. A thread that has just become the head may still be among them.
-/
namespace BigPlan.QueuedSynchronizer.Exclusive

open Lib Lib.Chain Program Node Lib.Runs

variable {T : Type} [DecidableEq T] {x x' : Shared T} {p p' : Place T} {t u : T} {n m h : Ref}

/-! ## What a move leaves as it is -/

/-- The field that a thread at the place may write. -/
def Place.Writes (x : Shared T) (field : Field) : Place T → Prop
  | .newNode | .adding _ .newHead => field = .nextWaiter x.memory.fresh
  | .adding _ (.casHead _) | .promoting _ _ .setHead => field = .head
  | .adding _ (.setTail _) | .adding _ (.casTail _) => field = .tail
  | .adding n (.setPrev _) | .promoting n _ .setPrev => field = .prev n
  | .waiting _ (.setNext n) | .promoting _ n .setNext => field = .next n
  | _ => False

theorem Moves.field (hm : Moves t x p x' p') {field : Field} (h : ¬ p.Writes x field) :
    x'.memory.field field = x.memory.field field := by
  cases hm with
  | reads hr => rfl
  | acquires => rfl
  | wins => rfl
  | signals => rfl
  | parks => rfl
  | clearsThread => rfl
  | releases => rfl
  | resets => rfl
  | unparks => rfl
  | _ => exact Function.update_of_ne h ..

theorem Moves.nextWaiter (hm : Moves t x p x' p')
    (h : ∀ n, x.memory.field (.nextWaiter n) = none) (n : Ref) :
    x'.memory.field (.nextWaiter n) = none := by
  by_cases hw : p.Writes x (.nextWaiter n)
  · cases hm with
    | reads hr => exact h n
    | creates => simp [h n, EXCLUSIVE]
    | createsHead => simp [h n]
    | _ => cases hw
  · exact (hm.field hw).trans (h n)

theorem Moves.fresh_le (hm : Moves t x p x' p') : x.links.fresh ≤ x'.links.fresh := by
  cases hm with
  | creates => exact Nat.le_succ _
  | createsHead => exact Nat.le_succ _
  | _ => exact Nat.le_refl _

/-- The thread of a node is only ever cleared. -/
theorem Moves.thread (hm : Moves t x p x' p') (hn : n < x.links.fresh) :
    x'.links.thread n = x.links.thread n ∨ x'.links.thread n = none := by
  have hne : n ≠ x.memory.fresh := Nat.ne_of_lt hn
  cases hm with
  | creates => exact Or.inl (Function.update_of_ne hne ..)
  | createsHead => exact Or.inl (Function.update_of_ne hne ..)
  | clearsThread =>
    rename_i node q
    by_cases hnode : n = node
    · exact Or.inr (by rw [hnode]; exact Function.update_self ..)
    · exact Or.inl (Function.update_of_ne hnode ..)
  | _ => exact Or.inl rfl

/-- Only the thread behind a node, and the one that has taken the place of it, write what it refers
to as the next one. -/
theorem Moves.next (hm : Moves t x p x' p') (n : Ref) : x'.links.next n = x.links.next n ∨
    (∃ m, p = .waiting m (.setNext n)) ∨ ∃ m, p = .promoting m n .setNext := by
  by_cases hw : p.Writes x (.next n)
  · cases hm with
    | reads hr => exact Or.inl rfl
    | setsNext =>
      cases hw
      exact Or.inr (Or.inl ⟨_, rfl⟩)
    | clearsNext =>
      cases hw
      exact Or.inr (Or.inr ⟨_, rfl⟩)
    | _ => cases hw
  · exact Or.inl (hm.field hw)

theorem Moves.promoted_suffix (hm : Moves t x p x' p') : x.promoted <:+ x'.promoted := by
  cases hm with
  | promotes => exact List.suffix_cons _ _
  | _ => exact List.suffix_refl _

theorem Moves.thread_cleared {q : Ref} (hm : Moves t x (.promoting n q .setThread) x' p') :
    x'.links.thread n = none := by
  cases hm with
  | clearsThread => exact Function.update_self ..
  | reads hr => cases hr

theorem Moves.of_promoting {q : Ref} {w : Promoting} (hm : Moves t x p x' (.promoting n q w))
    (hw : w ≠ .setHead) : x'.queued = x.queued ∧ ∃ w₀, p = .promoting n q w₀ := by
  cases hm with
  | wins => exact absurd rfl hw
  | promotes => exact ⟨rfl, _, rfl⟩
  | clearsThread => exact ⟨rfl, _, rfl⟩
  | clearsPrev => exact ⟨rfl, _, rfl⟩
  | reads hr => cases hr

/-- A thread that waits has written its node to the one before it, or does so in this move. -/
theorem Moves.of_waiting {w : Waiting} (hm : Moves t x p x' (.waiting n w))
    (hw : ∀ m, w ≠ .setNext m) :
    (x'.links = x.links ∧ ∃ w₀, p = .waiting n w₀ ∧ ∀ m, w₀ ≠ .setNext m) ∨
      ∃ q, p = .waiting n (.setNext q) ∧ x'.links.prev n = x.links.prev n ∧
        x'.links.next q = some n := by
  cases hm with
  | appends => exact absurd rfl (hw _)
  | setsNext =>
    rename_i pred
    have hne : Field.prev n ≠ .next pred := nofun
    exact Or.inr ⟨pred, rfl, (x.memory.field_set (.next pred) (.prev n) (some n)).trans (if_neg hne),
      (x.memory.field_set (.next pred) (.next pred) (some n)).trans (if_pos rfl)⟩
  | signals => exact Or.inl ⟨rfl, _, rfl, nofun⟩
  | parks => exact Or.inl ⟨rfl, _, rfl, nofun⟩
  | reads hr =>
    cases hr with
    | waiting hr =>
      refine Or.inl ⟨rfl, _, rfl, ?_⟩
      cases hr <;> exact nofun

theorem Moves.of_promoted (hm : Moves t x p x' p') (hnew : (u, n) ∈ x'.promoted)
    (hold : (u, n) ∉ x.promoted) : u = t ∧ ∃ q, p = .promoting n q .setHead ∧
      p' = .promoting n q .setThread ∧ x'.links.thread = x.links.thread := by
  cases hm with
  | promotes =>
    obtain hfirst | hmem := List.mem_cons.mp hnew
    · cases hfirst
      exact ⟨rfl, _, rfl, rfl, rfl⟩
    · exact absurd hmem hold
  | _ => exact absurd hnew hold

namespace Situation

variable {c c' : Situation T}

/-- What is known of the nodes that the methods look at, beside the links of the queue. -/
structure Tidy (c : Situation T) : Prop where
  exclusive : ∀ n, c.shared.memory.field (.nextWaiter n) = none
  /-- The last heads have no threads, unless a thread has just become the head. -/
  cleared : ∀ u n, (u, n) ∈ c.shared.promoted → c.links.thread n = none ∨
    c.links.thread n = some u ∧ ∃ p, c.place u = .promoting n p .setThread
  left : ∀ u n p q, c.place u = .promoting n p q → q ≠ .setHead → p ≠ n ∧ Gone c.links c.waiting p
  /-- The node before that of a thread refers to it, once its thread has written that. -/
  behind : ∀ u n w p, c.place u = .waiting n w → (∀ m, w ≠ .setNext m) → c.links.prev n = some p →
    c.links.next p = some n

theorem Takes.rely (ht : c.Takes t p' c') (hut : u ≠ t) :
    Rely c.links c'.links c.waiting c'.waiting u (c.place u) :=
  c.follows.inv.rely ht.stepped hut

/-- Threads leave the queue in its order. -/
theorem Takes.waiting_prefix (ht : c.Takes t p' c') (hqueued : c'.shared.queued = c.shared.queued) :
    c'.waiting <+: c.waiting := by
  obtain ⟨before, hbefore⟩ := ht.moves.promoted_suffix
  rw [queued_eq, queued_eq, ← hbefore, ← List.append_assoc] at hqueued
  exact ⟨before, List.append_cancel_right hqueued⟩

/-- A node that has left the queue does not come back. -/
theorem Takes.gone (ht : c.Takes t p' c') (hqueued : c'.shared.queued = c.shared.queued)
    (hg : Gone c.links c.waiting h) : Gone c'.links c'.waiting h := by
  refine ⟨⟨Nat.lt_of_lt_of_le hg.known.lt ht.moves.fresh_le, ?_⟩, fun hmem => hg.left ?_⟩
  · obtain hshown | hnone := hg.known.shown
    · refine Or.inl ?_
      change h ∈ nodesOf c'.shared.queued
      rw [hqueued]
      exact hshown
    · obtain hsame | hnone' := ht.moves.thread hg.known.lt
      · exact Or.inr (hsame.trans hnone)
      · exact Or.inr hnone'
  · exact List.map_subset _ (ht.waiting_prefix hqueued).subset hmem

theorem Tidy.cleared_takes (hc : c.Tidy) (ht : c.Takes t p' c') (u : T) (n : Ref)
    (hmem : (u, n) ∈ c'.shared.promoted) : c'.links.thread n = none ∨
      c'.links.thread n = some u ∧ ∃ p, c'.place u = .promoting n p .setThread := by
  by_cases hold : (u, n) ∈ c.shared.promoted
  · have hlt : n < c.links.fresh := by
      refine c.follows.inv.linked.allocated n (mem_nodesOf.mpr ⟨u, ?_⟩)
      rw [c.follows.inv.linked.queued]
      exact List.mem_append_right _ hold
    obtain hsame | hnone := ht.moves.thread hlt
    · obtain hnone | ⟨hthread, p, hplace⟩ := hc.cleared u n hold
      · exact Or.inl (hsame.trans hnone)
      · by_cases hut : u = t
        · subst hut
          have hm := ht.moves
          rw [hplace] at hm
          exact Or.inl hm.thread_cleared
        · exact Or.inr ⟨hsame.trans hthread, p, (ht.place_of_ne hut).trans hplace⟩
    · exact Or.inl hnone
  · obtain ⟨rfl, q, hplace, rfl, hsame⟩ := ht.moves.of_promoted hmem hold
    have hk := c.follows.inv.knows u
    rw [hplace] at hk
    refine Or.inr ⟨?_, q, ht.place_self⟩
    rw [hsame]
    exact c.follows.inv.linked.threads u n hk.1

theorem Tidy.left_takes (hc : c.Tidy) (ht : c.Takes t p' c') (u : T) (n p : Ref) (q : Promoting)
    (hplace : c'.place u = .promoting n p q) (hq : q ≠ .setHead) :
    p ≠ n ∧ Gone c'.links c'.waiting p := by
  by_cases hut : u = t
  · subst hut
    have hm := ht.moves
    rw [ht.place_self.symm.trans hplace] at hm
    obtain ⟨hqueued, w₀, hplace₀⟩ := hm.of_promoting hq
    have hk := c.follows.inv.knows u
    rw [hplace₀] at hk
    have hleft : p ≠ n ∧ Gone c.links c.waiting p := by
      by_cases hw₀ : w₀ = .setHead
      · subst hw₀
        obtain ⟨last, hqueue⟩ := c.follows.inv.linked.queue p hk.2.2
        refine ⟨?_, hqueue.gone⟩
        rintro rfl
        exact hqueue.head_notMem (mem_nodesOf.mpr ⟨u, hk.1⟩)
      · exact hc.left u n p w₀ hplace₀ hw₀
    exact ⟨hleft.1, ht.gone hqueued hleft.2⟩
  · rw [ht.place_of_ne hut] at hplace
    obtain ⟨hne, hgone⟩ := hc.left u n p q hplace hq
    exact ⟨hne, (ht.rely hut).gone p hgone⟩

theorem Tidy.behind_takes (hc : c.Tidy) (ht : c.Takes t p' c') (u : T) (n : Ref) (w : Waiting)
    (p : Ref) (hplace : c'.place u = .waiting n w) (hw : ∀ m, w ≠ .setNext m)
    (hprev : c'.links.prev n = some p) : c'.links.next p = some n := by
  by_cases hut : u = t
  · subst hut
    have hm := ht.moves
    rw [ht.place_self.symm.trans hplace] at hm
    obtain ⟨hlinks, w₀, hplace₀, hw₀⟩ | ⟨q, hplace₀, hsame, hnext⟩ := hm.of_waiting hw
    · have hfield : c'.links = c.links := hlinks
      rw [hfield] at hprev ⊢
      exact hc.behind u n w₀ p hplace₀ hw₀ hprev
    · have hk := c.follows.inv.knows u
      rw [hplace₀] at hk
      obtain rfl : q = p := Option.some.inj (hk.2.symm.trans (hsame.symm.trans hprev))
      exact hnext
  · rw [ht.place_of_ne hut] at hplace
    have hk := c.follows.inv.knows u
    rw [hplace] at hk
    have hprev₀ : c.links.prev n = some p := ((ht.rely hut).waits n hk.1).2.symm.trans hprev
    have hnext := hc.behind u n w p hplace hw hprev₀
    obtain hsame | ⟨m, hplace'⟩ | ⟨m, hplace'⟩ := ht.moves.next p
    · exact hsame.trans hnext
    · -- only one thread is behind the node
      have hk' := c.follows.inv.knows t
      rw [hplace'] at hk'
      exact absurd (c.follows.inv.linked.eq_of_prev hk.1 hk'.1 hprev₀ hk'.2).1 hut
    · -- no thread is behind the last head
      have hk' := c.follows.inv.knows t
      rw [hplace'] at hk'
      obtain ⟨hne, hgone⟩ := hc.left t m p _ hplace' nofun
      obtain ⟨last, hq⟩ := c.follows.inv.linked.queue m hk'
      obtain ⟨p₀, hmem, hp₀⟩ := hq.exists_prev (mem_nodesOf.mpr ⟨u, hk.1⟩)
      obtain rfl := Option.some.inj (hp₀.symm.trans hprev₀)
      obtain hmem | hlast := List.mem_append.mp hmem
      · exact absurd hmem hgone.left
      · exact absurd (List.mem_singleton.mp hlast) hne

theorem Tidy.takes (hc : c.Tidy) (ht : c.Takes t p' c') : c'.Tidy where
  exclusive := ht.moves.nextWaiter hc.exclusive
  cleared := hc.cleared_takes ht
  left := hc.left_takes ht
  behind := hc.behind_takes ht

/-- Every state of a run is that of a situation in which this is known. -/
theorem exists_tidy (turns : List (Turn T)) :
    ∃ c : Situation T, c.state = run State.step .start turns ∧ c.Tidy := by
  refine invariant_run (P := fun s : State T => ∃ c : Situation T, c.state = s ∧ c.Tidy) ?_
    ⟨start, rfl, ?_⟩ turns
  · rintro s turn ⟨c, rfl, hc⟩
    obtain ⟨c', hstate, rfl | ⟨p', ht⟩⟩ := c.exists_step turn
    · exact ⟨c', hstate, hc⟩
    · exact ⟨c', hstate, hc.takes ht⟩
  · exact ⟨fun _ => rfl, fun _ _ => nofun, fun _ _ _ _ => nofun, fun _ _ _ _ => nofun⟩

end Situation

/-! ## What they are told -/

namespace State

/-- The threads that wait in the queue, the last one first. -/
def line (s : State T) : List T :=
  (s.shared.queued.take (s.shared.queued.length - s.shared.promoted.length)).map Prod.fst

/-- The thread has become the head, and is not back from `acquire` yet. -/
def Heads (s : State T) (u : T) : Prop :=
  (∃ n, (u, n) ∈ s.shared.promoted) ∧ ∃ code, s.phase u = .acquiring code

/-- The thread waits, in front of the other one if that waits too. -/
def Precedes (s : State T) (v u : T) : Prop := v ∈ s.line ∧ (u ∈ s.line → [u, v].Sublist s.line)

/-- The next operation of the thread is a call of `tryAcquire`. -/
def Attempts (s : State T) (u : T) : Prop :=
  ∃ arg next, s.phase u = .acquiring (.perform (.tryAcquire arg) next)

/-- A thread has set the first head, and not the tail yet. -/
def Starting (s : State T) : Prop :=
  s.shared.memory.field .head ≠ none ∧ s.shared.memory.field .tail = none

/-- What the methods tell a thread that is not disturbed. -/
structure Shows (s : State T) (t : T) (input : Input) (just : List T) : Prop where
  leads : just = [] ∨ ∃ u, just = [u] ∧ s.Heads u
  getFirstQueuedThread : Tells t input s.shared.memory getFirstQueuedThread s.line.getLast?
  isQueued : ∀ u, Tells t input s.shared.memory (isQueued (some u)) (u ∈ s.line ++ just)
  getQueueLength : Tells t input s.shared.memory getQueueLength (s.line ++ just).length
  getQueuedThreads : Tells t input s.shared.memory getQueuedThreads (s.line ++ just)
  getExclusiveQueuedThreads :
    Tells t input s.shared.memory getExclusiveQueuedThreads (s.line ++ just)
  getSharedQueuedThreads : Tells t input s.shared.memory getSharedQueuedThreads []
  hasQueuedThreads : ∃ b, Tells t input s.shared.memory hasQueuedThreads b ∧
    (b = true ↔ s.line ≠ [] ∨ s.Starting)

end State

namespace Situation

variable {c : Situation T} {last : List Ref} {input : Input}

omit [DecidableEq T] in
theorem line_eq (c : Situation T) : c.state.line = c.waiting.map Prod.fst := by
  have hlength : c.shared.queued.length - c.shared.promoted.length = c.waiting.length := by
    rw [queued_eq, List.length_append]
    omega
  rw [State.line, hlength, queued_eq, List.take_left]

omit [DecidableEq T] in
theorem threads_waiting (c : Situation T) :
    c.shared.memory.threads (nodesOf c.waiting) = c.state.line := by
  rw [line_eq, Memory.threads, nodesOf, List.filterMap_map]
  have hthreads (a : T × Ref) (ha : a ∈ c.waiting) :
      (c.shared.memory.thread ∘ Prod.snd) a = some a.1 :=
    c.follows.inv.linked.threads a.1 a.2 ha
  rw [List.filterMap_congr hthreads]
  exact congrFun List.filterMap_eq_map' c.waiting

omit [DecidableEq T] in
/-- Behind the head there are no threads, and at the head one at most. -/
theorem Tidy.threads_last (hc : c.Tidy) (hhead : c.links.head = some h)
    (hq : Queue c.links c.waiting h last) : c.shared.memory.threads (h :: last) = [] ∨
      ∃ u, c.shared.memory.threads (h :: last) = [u] ∧ c.state.Heads u := by
  have hnode (a : Ref) (ha : a ∈ h :: last) : c.links.thread a = none ∨
      a = h ∧ ∃ u, c.links.thread a = some u ∧ c.state.Heads u := by
    obtain hshown | hnone := (hq.known a (List.mem_append_right _ ha)).shown
    · obtain ⟨u, hu⟩ := mem_nodesOf.mp hshown
      rw [c.follows.inv.linked.queued] at hu
      obtain hwaits | hpromoted := List.mem_append.mp hu
      · exact absurd ha (List.disjoint_of_nodup_append hq.leads.nodup (mem_nodesOf.mpr ⟨u, hwaits⟩))
      · obtain hnone | ⟨hthread, p, hplace⟩ := hc.cleared u a hpromoted
        · exact Or.inl hnone
        · have hk := c.follows.inv.knows u
          have hphase := c.follows.phase u
          rw [hplace] at hk hphase
          have hah : a = h := Option.some.inj (hk.symm.trans hhead)
          exact Or.inr ⟨hah, u, hthread, ⟨a, hpromoted⟩, _, hphase⟩
    · exact Or.inl hnone
  have hlast : c.shared.memory.threads last = [] := by
    refine List.filterMap_eq_nil_iff.mpr fun a ha => ?_
    obtain hnone | ⟨rfl, -⟩ := hnode a (List.mem_cons_of_mem h ha)
    · exact hnone
    · exact absurd ha (List.nodup_cons.mp hq.leads.nodup.of_append_right).1
  have hcons : c.shared.memory.threads (h :: last) = (c.links.thread h).toList := by
    rw [Memory.threads_cons, hlast, List.append_nil]
    rfl
  rw [hcons]
  obtain hnone | ⟨-, u, hthread, hleads⟩ := hnode h List.mem_cons_self
  · rw [hnone]
    exact Or.inl rfl
  · rw [hthread]
    exact Or.inr ⟨u, rfl, hleads⟩

omit [DecidableEq T] in
theorem Tidy.threads_filter (hc : c.Tidy) (l : List Ref) :
    (l.filter fun a => !c.shared.memory.isShared a) = l ∧ l.filter c.shared.memory.isShared = [] := by
  have hnot (a : Ref) : c.shared.memory.isShared a = false := by
    rw [Memory.isShared, hc.exclusive a]
    rfl
  simp [hnot]

/-- The methods that go from the tail, if the nodes from there on have these threads. -/
theorem Tidy.shows (hc : c.Tidy) {l : List Ref} {just : List T}
    (hleads : Leads c.shared.memory.prev c.links.tail l none)
    (hthreads : c.shared.memory.threads l = c.state.line ++ just)
    (hjust : just = [] ∨ ∃ u, just = [u] ∧ c.state.Heads u)
    (hfirst : Tells t input c.shared.memory getFirstQueuedThread c.state.line.getLast?)
    (hhas : c.links.head ≠ c.links.tail ↔ c.state.line ≠ [] ∨ c.state.Starting) :
    c.state.Shows t input just where
  leads := hjust
  getFirstQueuedThread := hfirst
  isQueued u := hthreads ▸ tells_isQueued hleads u
  getQueueLength := hthreads ▸ tells_getQueueLength hleads
  getQueuedThreads := hthreads ▸ tells_getQueuedThreads hleads
  getExclusiveQueuedThreads := by
    have hlist : Tells t input c.shared.memory getExclusiveQueuedThreads _ :=
      tells_getExclusiveQueuedThreads hleads
    rwa [(hc.threads_filter l).1, hthreads] at hlist
  getSharedQueuedThreads := by
    have hlist : Tells t input c.shared.memory getSharedQueuedThreads _ :=
      tells_getSharedQueuedThreads hleads
    rwa [(hc.threads_filter l).2] at hlist
  hasQueuedThreads := ⟨_, tells_hasQueuedThreads, decide_eq_true_iff.trans hhas⟩

omit [DecidableEq T] in
/-- The node behind the head is the first one. -/
theorem getLast_of_next (hq : Queue c.links c.waiting h last) {a : Ref}
    (hnext : c.shared.memory.field (.next h) = some a) :
    (nodesOf c.waiting).getLast? = some a := by
  obtain ⟨hmem, hprev⟩ := hq.next h (by simp) a hnext
  obtain ⟨u, hu⟩ := mem_nodesOf.mp hmem
  obtain ⟨before, hbefore⟩ := hq.first hu hprev
  simp [hbefore, nodesOf]

omit [DecidableEq T] in
/-- The head is not the last node while threads wait. -/
theorem head_ne_tail {q : Option Ref} (hhead : c.links.head = some h)
    (hq : Queue c.links c.waiting h last)
    (hwaiting : Leads c.shared.memory.prev c.links.tail (nodesOf c.waiting) q)
    (hline : c.state.line ≠ []) : c.links.head ≠ c.links.tail := by
  rw [line_eq] at hline
  have hnot := hq.head_notMem
  cases hnodes : nodesOf c.waiting with
  | nil => exact absurd (List.map_eq_nil_iff.mpr (List.map_eq_nil_iff.mp hnodes)) hline
  | cons a l =>
    rw [hnodes] at hwaiting hnot
    rw [hhead, hwaiting.1]
    rintro ⟨⟩
    exact hnot List.mem_cons_self

omit [DecidableEq T] in
/-- The head is the last node if no thread waits. -/
theorem head_ne_tail_iff {q : Option Ref} (hhead : c.links.head = some h)
    (hq : Queue c.links c.waiting h last)
    (htail : c.links.tail = (nodesOf c.waiting ++ [h]).head?)
    (hwaiting : Leads c.shared.memory.prev c.links.tail (nodesOf c.waiting) q) :
    c.links.head ≠ c.links.tail ↔ c.state.line ≠ [] ∨ c.state.Starting := by
  constructor
  · intro hne
    refine Or.inl fun hline => ?_
    rw [line_eq, List.map_eq_nil_iff] at hline
    rw [hline] at htail
    exact hne (hhead.trans htail.symm)
  · rintro (hline | hstarting)
    · exact head_ne_tail hhead hq hwaiting hline
    · have hnone : c.links.tail = none := hstarting.2
      rw [hnone, eq_comm, List.head?_eq_none_iff] at htail
      cases (List.append_eq_nil_iff.mp htail).2

omit [DecidableEq T] in
theorem starting_iff (htail : c.links.tail = none) :
    c.links.head ≠ c.links.tail ↔ c.state.Starting := by
  rw [htail]
  exact (and_iff_left htail).symm

theorem Tidy.exists_view (hc : c.Tidy) (t : T) (input : Input) :
    ∃ just, c.state.Shows t input just := by
  have hempty (hnil : c.waiting = []) : c.state.line = [] := by
    rw [line_eq, hnil]
    rfl
  have hstarts (hline : c.state.line = []) (htail : c.links.tail = none) :
      c.links.head ≠ c.links.tail ↔ c.state.line ≠ [] ∨ c.state.Starting :=
    (starting_iff htail).trans (or_iff_right (not_not.mpr hline)).symm
  cases hhead : c.links.head with
  | none =>
    obtain ⟨htail, -⟩ := c.follows.inv.linked.headless hhead
    have hline := hempty (c.follows.inv.linked.waiting_nil htail)
    refine ⟨[], hc.shows (l := []) htail ?_ (Or.inl rfl) ?_ (hstarts hline htail)⟩
    · rw [hline]
      rfl
    · rw [hline]
      exact tells_getFirstQueuedThread_of_eq (hhead.trans htail.symm)
  | some h =>
    obtain ⟨last, hq⟩ := c.follows.inv.linked.queue h hhead
    have hnext (a : Ref) (ha : c.shared.memory.field (.next h) = some a) :
        (nodesOf c.waiting).getLast? = some a := getLast_of_next hq ha
    obtain htail | ⟨htail, hnil⟩ := hq.tail
    · have hleads := hq.leads
      rw [← htail] at hleads
      obtain ⟨q, hwaiting, hhq, -⟩ := leads_append.mp hleads
      refine ⟨_, hc.shows (l := nodesOf c.waiting ++ h :: last) hleads ?_ (hc.threads_last hhead hq)
        ?_ (head_ne_tail_iff hhead hq htail hwaiting)⟩
      · rw [Memory.threads_append, threads_waiting]
      · rw [← threads_waiting]
        exact tells_getFirstQueuedThread hwaiting hhead (Or.inl hhq) hq.head_notMem hnext
    · have hline := hempty hnil
      refine ⟨[], hc.shows (l := []) htail ?_ (Or.inl rfl) ?_ (hstarts hline htail)⟩
      · rw [hline]
        rfl
      · rw [hnil] at hnext
        rw [hline]
        exact tells_getFirstQueuedThread (l := []) htail hhead (Or.inr rfl) List.not_mem_nil hnext

/-! ## Threads before this one -/

omit [DecidableEq T] in
theorem line_nodup (c : Situation T) : c.state.line.Nodup := by
  rw [line_eq]
  have hnodup : c.waiting.Nodup := by
    have hqueued := List.Nodup.of_map _ c.follows.inv.linked.nodup
    rw [c.follows.inv.linked.queued] at hqueued
    exact hqueued.of_append_left
  refine hnodup.map_on fun a ha b hb hab => ?_
  obtain ⟨u, n⟩ := a
  obtain ⟨v, m⟩ := b
  obtain rfl : u = v := hab
  have hn := c.follows.inv.waits u n ha
  have hm := c.follows.inv.waits u m hb
  cases hplace : c.place u with
  | waiting k w =>
    rw [hplace] at hn hm
    exact congrArg _ (hn.symm.trans hm)
  | promoting k q w =>
    rw [hplace] at hn hm
    cases w with
    | setHead => exact congrArg _ (hn.symm.trans hm)
    | _ => exact hn.elim
  | _ =>
    rw [hplace] at hn
    exact hn.elim

end Situation

omit [DecidableEq T] in
/-- Only a new thread and one behind the head call `tryAcquire`. -/
theorem Place.of_tryAcquire {arg arg' : ℤ} {next : Option Bool → Method T Unit}
    (h : p.phase t arg' = .acquiring (.perform (.tryAcquire arg) next)) :
    p = .tryAcquire ∨ ∃ n q, p = .waiting n (.tryAcquire q) := by
  cases p with
  | tryAcquire => exact Or.inl rfl
  | waiting n w =>
    cases w with
    | tryAcquire q => exact Or.inr ⟨n, q, rfl⟩
    | _ => cases h
  | adding n a => cases a <;> cases h
  | promoting n q w => cases w <;> cases h
  | _ => cases h

namespace Situation

variable {c : Situation T} {last : List Ref} {v : T}

omit [DecidableEq T] in
theorem mem_line : u ∈ c.state.line ↔ ∃ n, (u, n) ∈ c.waiting := by
  simp [line_eq]

omit [DecidableEq T] in
/-- A thread that attempts while it waits is the one behind the head. -/
theorem attempts_first (ha : c.state.Attempts u) (hu : u ∈ c.state.line) :
    ∃ n h, c.place u = .waiting n (.tryAcquire h) ∧ (u, n) ∈ c.waiting ∧
      c.links.prev n = some h ∧ c.links.head = some h := by
  obtain ⟨arg, next, hphase⟩ := ha
  rw [c.follows.phase u] at hphase
  obtain ⟨m, hm⟩ := mem_line.mp hu
  have hwaits := c.follows.inv.waits u m hm
  obtain hplace | ⟨n, h, hplace⟩ := Place.of_tryAcquire hphase
  · rw [hplace] at hwaits
    exact hwaits.elim
  · have hk := c.follows.inv.knows u
    rw [hplace] at hk
    exact ⟨n, h, hplace, hk.1, hk.2.1, hk.2.2⟩

omit [DecidableEq T] in
/-- No thread precedes the first one. -/
theorem not_precedes (hq : Queue c.links c.waiting h last) (hn : (u, n) ∈ c.waiting)
    (hprev : c.links.prev n = some h) : ¬ c.state.Precedes v u := by
  rintro ⟨-, hsub⟩
  obtain ⟨before, hbefore⟩ := hq.first hn hprev
  have hnodup := c.line_nodup
  have hline : c.state.line = before.map Prod.fst ++ [u] := by
    rw [line_eq, hbefore, List.map_append]
    rfl
  have hsub := hsub (mem_line.mpr ⟨n, hn⟩)
  rw [hline] at hsub hnodup
  -- `u` is the last one, and behind it in the line there would be `v`
  obtain ⟨xs, ys, hline, hu, hv⟩ := List.cons_sublist_iff.mp hsub
  have hys : ys.getLast? = some u := by
    have hlast := congrArg List.getLast? hline
    obtain ⟨zs, z, rfl⟩ := (List.eq_nil_or_concat' ys).resolve_left
      (List.ne_nil_of_mem (List.singleton_sublist.mp hv))
    simpa using hlast.symm
  rw [hline] at hnodup
  exact List.disjoint_of_nodup_append hnodup hu (List.mem_of_getLast? hys)

omit [DecidableEq T] in
/-- Behind the head there is no thread that does not wait. -/
theorem thread_of_next (hq : Queue c.links c.waiting h last)
    (hu : u ∉ c.state.line) : (c.shared.memory.field (.next h)).bind c.shared.memory.thread ≠ some u := by
  intro hthread
  obtain ⟨s, hs, hthread⟩ := Option.bind_eq_some_iff.mp hthread
  obtain ⟨hmem, -⟩ := hq.next h (by simp) s hs
  obtain ⟨v, hv⟩ := mem_nodesOf.mp hmem
  have hsame : c.links.thread s = some u := hthread
  rw [c.follows.inv.linked.threads v s hv] at hsame
  cases hsame
  exact hu (mem_line.mpr ⟨s, hv⟩)

theorem Tidy.exists_predecessors (hc : c.Tidy) (ha : c.state.Attempts u) (input : Input) :
    ∃ b, Tells u input c.shared.memory (hasQueuedPredecessors u) b ∧
      (b = true ↔ (∃ v, c.state.Precedes v u) ∨ c.state.Starting) := by
  cases hhead : c.links.head with
  | none =>
    obtain ⟨htail, -⟩ := c.follows.inv.linked.headless hhead
    have hwaiting := c.follows.inv.linked.waiting_nil htail
    refine ⟨false, tells_hasQueuedPredecessors_of_eq (hhead.trans htail.symm) u, nofun, ?_⟩
    rintro (⟨v, hv, -⟩ | ⟨hhead', -⟩)
    · rw [line_eq, hwaiting] at hv
      cases hv
    · exact absurd hhead hhead'
  | some h =>
    obtain ⟨last, hq⟩ := c.follows.inv.linked.queue h hhead
    refine ⟨_, tells_hasQueuedPredecessors hhead u, ?_⟩
    rw [decide_eq_true_iff]
    obtain htail | ⟨htail, hnil⟩ := hq.tail
    · have hset : c.links.tail ≠ none := by
        rw [htail]
        simp
      have hstarting : ¬ c.state.Starting := fun hs => hset hs.2
      by_cases hu : u ∈ c.state.line
      · obtain ⟨n, h', hplace, hn, hprev, hhead'⟩ := attempts_first ha hu
        obtain rfl : h = h' := Option.some.inj (hhead.symm.trans hhead')
        have hnext := hc.behind u n _ h hplace nofun hprev
        have hthread := c.follows.inv.linked.threads u n hn
        have hbehind : (c.shared.memory.field (.next h)).bind c.shared.memory.thread = some u :=
          Option.bind_eq_some_iff.mpr ⟨n, hnext, hthread⟩
        refine iff_of_false (fun hb => hb.2 hbehind) ?_
        rintro (⟨v, hv⟩ | hs)
        · exact not_precedes hq hn hprev hv
        · exact hstarting hs
      · by_cases hline : c.state.line = []
        · have hnil : nodesOf c.waiting = [] := by
            rw [line_eq] at hline
            rw [List.map_eq_nil_iff.mp hline]
            rfl
          rw [hnil] at htail
          refine iff_of_false (fun hb => hb.1 htail) ?_
          rintro (⟨v, hv, -⟩ | hs)
          · rw [hline] at hv
            cases hv
          · exact hstarting hs
        · obtain ⟨v, hv⟩ := List.exists_mem_of_ne_nil _ hline
          refine iff_of_true ⟨?_, thread_of_next hq hu⟩ (Or.inl ⟨v, hv, fun h => absurd h hu⟩)
          have hleads := hq.leads
          rw [← htail] at hleads
          obtain ⟨q, hwaiting, -⟩ := leads_append.mp hleads
          exact fun h' => head_ne_tail hhead hq hwaiting hline (hhead.trans h'.symm)
    · refine iff_of_true ⟨fun h' => ?_, ?_⟩ (Or.inr ⟨?_, htail⟩)
      · exact Option.some_ne_none _ (h'.symm.trans htail)
      · refine thread_of_next hq ?_
        rw [line_eq, hnil]
        exact List.not_mem_nil
      · exact fun hnone => Option.some_ne_none _ (hhead.symm.trans hnone)

end Situation

/-! ## Every run -/

/-- Whatever the threads have done, the methods tell one that is not disturbed what waits. -/
theorem exists_shows (turns : List (Turn T)) (t : T) (input : Input) :
    ∃ just, (run State.step (.start : State T) turns).Shows t input just := by
  obtain ⟨c, hc, htidy⟩ := Situation.exists_tidy turns
  rw [← hc]
  exact htidy.exists_view t input

/-- `hasQueuedPredecessors` tells a thread that is about to call `tryAcquire` if others came first. -/
theorem exists_hasQueuedPredecessors (turns : List (Turn T)) (u : T) (input : Input)
    (h : (run State.step (.start : State T) turns).Attempts u) :
    ∃ b, Tells u input (run State.step (.start : State T) turns).shared.memory
      (hasQueuedPredecessors u) b ∧
      (b = true ↔ (∃ v, (run State.step (.start : State T) turns).Precedes v u) ∨
        (run State.step (.start : State T) turns).Starting) := by
  obtain ⟨c, hc, htidy⟩ := Situation.exists_tidy turns
  rw [← hc] at h ⊢
  exact htidy.exists_predecessors h input

/-- One thread has had the lock and is about to try anew, while another one, with the first node, is
about to try again. -/
def barging : List (Turn Bool) :=
  List.replicate 2 ⟨false, 1, ⟨0, false, false, 0⟩⟩ ++
    List.replicate 18 ⟨true, 1, ⟨0, false, false, 0⟩⟩ ++
    List.replicate 7 ⟨false, 1, ⟨0, false, false, 0⟩⟩

/-- Only the one that does not wait has another one before it. -/
theorem exists_hasQueuedPredecessors_barging :
    Tells false ⟨0, false, false, 0⟩ (run State.step (.start : State Bool) barging).shared.memory
      (hasQueuedPredecessors false) true ∧
    Tells true ⟨0, false, false, 0⟩ (run State.step (.start : State Bool) barging).shared.memory
      (hasQueuedPredecessors true) false := by
  have hline : (run State.step (.start : State Bool) barging).line = [true] := by decide +kernel
  have htail : (run State.step (.start : State Bool) barging).shared.memory.field .tail = some 1 :=
    rfl
  obtain ⟨b, hnew, hothers⟩ := exists_hasQueuedPredecessors barging false ⟨0, false, false, 0⟩
    ⟨1, _, rfl⟩
  obtain ⟨b', hfirst, hothers'⟩ := exists_hasQueuedPredecessors barging true ⟨0, false, false, 0⟩
    ⟨1, _, rfl⟩
  have hb : b = true := by
    refine hothers.mpr (.inl ⟨true, ?_, fun hmem => ?_⟩)
    · rw [hline]
      exact List.mem_cons_self
    · rw [hline] at hmem
      cases List.mem_singleton.mp hmem
  have hb' : b' = false := by
    apply Bool.eq_false_of_not_eq_true
    intro htrue
    obtain ⟨v, hv, hsub⟩ | ⟨-, hnone⟩ := hothers'.mp htrue
    · rw [hline] at hv hsub
      have hlength := (hsub List.mem_cons_self).length_le
      exact absurd hlength (Nat.not_succ_le_self 1)
    · rw [htail] at hnone
      cases hnone
  subst hb hb'
  exact ⟨hnew, hfirst⟩

end BigPlan.QueuedSynchronizer.Exclusive
