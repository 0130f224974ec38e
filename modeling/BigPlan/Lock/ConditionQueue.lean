import BigPlan.Lib.Chain
import BigPlan.Lock.Threads

/-!
# The queue of a condition

The waiters of a condition are a chain with a reference to its last node. A thread that holds the
lock links out those that do not wait any more, from the first one to the last one, and keeps the
last one that is left.
-/
namespace BigPlan.QueuedSynchronizer

open Lib Lib.Chain Program Node

variable {T : Type} {m m' : Memory T} {l kept rest : List Ref} {a b : Ref}

namespace Memory

def nextWaiter (m : Memory T) (a : Ref) : Option Ref := m.field (.nextWaiter a)

/-- The queue of the condition has these nodes. -/
structure Queue (m : Memory T) (l : List Ref) : Prop where
  leads : Leads m.nextWaiter (m.field .firstWaiter) l none
  last : m.field .lastWaiter = l.getLast?

/-- The nodes that wait for a signal. -/
def waiting (m : Memory T) (l : List Ref) : List Ref := l.filter fun a => m.waitStatus a = CONDITION

/-- The memory differs only in the fields of the condition and in what the nodes of its queue refer
to as the next one. -/
structure SameBut (m : Memory T) (l : List Ref) (m' : Memory T) : Prop where
  waitStatus : m'.waitStatus = m.waitStatus
  fresh : m'.fresh = m.fresh
  nextWaiter : ∀ a ∉ l, m'.nextWaiter a = m.nextWaiter a

theorem SameBut.refl : m.SameBut l m := ⟨rfl, rfl, fun _ _ => rfl⟩

/-! ## Writes -/

theorem nextWaiter_set_nextWaiter (m : Memory T) (a : Ref) (v : Option Ref) :
    (m.set (.nextWaiter a) v).nextWaiter = Function.update m.nextWaiter a v := by
  funext b
  simp [nextWaiter, Function.update_apply]

theorem nextWaiter_set_lastWaiter (m : Memory T) (v : Option Ref) :
    (m.set .lastWaiter v).nextWaiter = m.nextWaiter := by
  funext b
  simp [nextWaiter]

theorem nextWaiter_set_firstWaiter (m : Memory T) (v : Option Ref) :
    (m.set .firstWaiter v).nextWaiter = m.nextWaiter := by
  funext b
  simp [nextWaiter]

theorem Queue.set_lastWaiter (h : Leads m.nextWaiter (m.field .firstWaiter) l none) :
    (m.set .lastWaiter l.getLast?).Queue l := by
  refine ⟨?_, ?_⟩
  · rw [nextWaiter_set_lastWaiter]
    simpa using h
  · simp

/-- The trail, or else the condition itself, is made to refer to the node. -/
def follow (m : Memory T) (trail v : Option Ref) : Memory T :=
  m.set (trail.elim .firstWaiter .nextWaiter) v

/-- What a turn of the loop writes if the node does not wait. -/
def unlink (m : Memory T) (trail : Option Ref) (a : Ref) : Memory T :=
  let m' := (m.set (.nextWaiter a) none).follow trail (m.nextWaiter a)
  if m.nextWaiter a = none then m'.set .lastWaiter trail else m'

theorem leads_follow (h : m.Queue (kept ++ a :: rest)) :
    Leads ((m.set (.nextWaiter a) none).follow kept.getLast? (m.nextWaiter a)).nextWaiter
      (((m.set (.nextWaiter a) none).follow kept.getLast? (m.nextWaiter a)).field .firstWaiter)
      (kept ++ rest) none := by
  have hnodup := h.leads.nodup
  have hleads := h.leads
  rcases List.eq_nil_or_concat kept with rfl | ⟨xs, b, rfl⟩
  · have harest : a ∉ rest := (List.nodup_cons.mp hnodup).1
    rw [List.getLast?_nil, follow, Option.elim_none, nextWaiter_set_firstWaiter,
      nextWaiter_set_nextWaiter, field_set, if_pos rfl]
    exact (leads_update harest).mpr hleads.2
  · rw [List.concat_eq_append] at hnodup hleads ⊢
    rw [List.append_assoc, List.singleton_append] at hnodup hleads ⊢
    have ha : a ∉ xs ++ b :: rest := by
      have hperm : (xs ++ b :: a :: rest).Perm (a :: (xs ++ b :: rest)) := by
        rw [List.append_cons xs b (a :: rest), List.append_cons xs b rest]
        exact List.perm_middle
      exact (List.nodup_cons.mp (hperm.nodup_iff.mp hnodup)).1
    have hab : a ≠ b := fun heq => ha (by simp [heq])
    rw [List.getLast?_concat, follow, Option.elim_some, nextWaiter_set_nextWaiter,
      nextWaiter_set_nextWaiter, Function.update_comm hab, leads_update ha]
    simpa using hleads.erase

theorem Queue.unlink (h : m.Queue (kept ++ a :: rest)) :
    (m.unlink kept.getLast? a).Queue (kept ++ rest) := by
  have hleads := leads_follow h
  have hnext : m.nextWaiter a = rest.head? := next_of_leads h.leads
  unfold Memory.unlink
  split
  · rename_i hnone
    rw [hnext] at hnone
    obtain rfl := List.head?_eq_none_iff.mp hnone
    rw [List.append_nil] at hleads ⊢
    exact Queue.set_lastWaiter hleads
  · rename_i hsome
    refine ⟨hleads, ?_⟩
    have hsame : ((m.set (.nextWaiter a) none).follow kept.getLast? (m.nextWaiter a)).field
        .lastWaiter = m.field .lastWaiter := by
      cases kept.getLast? <;> simp [follow]
    rcases List.eq_nil_or_concat rest with rfl | ⟨ys, c, rfl⟩
    · exact absurd hnext hsome
    · rw [hsame, h.last, List.concat_eq_append, ← List.cons_append, ← List.append_assoc,
        ← List.append_assoc, List.getLast?_concat, List.getLast?_concat]

/-- A node that is linked out refers to no other one. -/
theorem nextWaiter_unlink_self (trail : Option Ref) (hne : trail ≠ some a) :
    (m.unlink trail a).nextWaiter a = none := by
  have hfollow : ((m.set (.nextWaiter a) none).follow trail (m.nextWaiter a)).nextWaiter a =
      none := by
    cases trail with
    | none => simp [follow, nextWaiter]
    | some b =>
      have hab : a ≠ b := fun heq => hne (heq ▸ rfl)
      simp [follow, nextWaiter, hab]
  unfold Memory.unlink
  split
  · rw [nextWaiter_set_lastWaiter]
    exact hfollow
  · exact hfollow

theorem nextWaiter_unlink_of_ne (trail : Option Ref) (hba : b ≠ a) (hne : trail ≠ some b) :
    (m.unlink trail a).nextWaiter b = m.nextWaiter b := by
  have hfollow : ((m.set (.nextWaiter a) none).follow trail (m.nextWaiter a)).nextWaiter b =
      m.nextWaiter b := by
    cases trail with
    | none => simp [follow, nextWaiter, hba]
    | some c =>
      have hbc : b ≠ c := fun heq => hne (heq ▸ rfl)
      simp [follow, nextWaiter, hba, hbc]
  unfold Memory.unlink
  split
  · rw [nextWaiter_set_lastWaiter]
    exact hfollow
  · exact hfollow

@[simp] theorem waitStatus_unlink (trail : Option Ref) :
    (m.unlink trail a).waitStatus = m.waitStatus := by
  unfold Memory.unlink
  split <;> rfl

@[simp] theorem fresh_unlink (trail : Option Ref) : (m.unlink trail a).fresh = m.fresh := by
  unfold Memory.unlink
  split <;> rfl

end Memory

/-! ## The loop -/

/-- A thread that no other one disturbs runs the method to its end. -/
def Runs [DecidableEq T] (t : T) (input : Input) (m : Memory T) {α : Type} (method : Method T α) (m' : Memory T)
    (a : α) : Prop :=
  Returns (fun m o => m.perform t input o) m method m' (.ok a)

/-- A turn of `unlinkCancelledWaiters`. -/
def unlinkTurn (s : Option Ref × Option Ref) : Method T ((Option Ref × Option Ref) ⊕ Unit) :=
  match s.1 with
  | none => return .inr ()
  | some t => do
    let next ← get (.nextWaiter t)
    let ws ← getWaitStatus t
    if ws ≠ CONDITION then
      set (.nextWaiter t) none
      set (s.2.elim .firstWaiter .nextWaiter) next
      let _ ← (if next = none then set .lastWaiter s.2 else pure ())
      return .inl (next, s.2)
    else return .inl (next, some t)

theorem unlinkCancelledWaiters_eq : (unlinkCancelledWaiters : Method T Unit) = (do
    let t ← get .firstWaiter
    forever unlinkTurn (t, none)) := rfl

section Loop

variable [DecidableEq T] {t : T} {input : Input}

theorem unlinkTurn_waiting (trail : Option Ref) (h : m.waitStatus a = CONDITION) :
    Runs t input m (unlinkTurn (some a, trail)) m (.inl (m.nextWaiter a, some a)) := by
  refine returns_then returns_lift (returns_then returns_lift ?_)
  change Returns _ m (if m.waitStatus a ≠ CONDITION then _ else _) _ _
  rw [if_neg (not_not.mpr h)]
  exact returns_pure

theorem unlinkTurn_cancelled (trail : Option Ref) (h : m.waitStatus a ≠ CONDITION) :
    Runs t input m (unlinkTurn (some a, trail)) (m.unlink trail a)
      (.inl (m.nextWaiter a, trail)) := by
  refine returns_then returns_lift (returns_then returns_lift ?_)
  change Returns _ m (if m.waitStatus a ≠ CONDITION then _ else _) _ _
  rw [if_pos h]
  let m' := (m.set (.nextWaiter a) none).follow trail (m.nextWaiter a)
  have hlast : Runs t input m' (if m.nextWaiter a = none then set .lastWaiter trail else pure ())
      (if m.nextWaiter a = none then m'.set .lastWaiter trail else m') () := by
    split
    · exact returns_lift
    · exact returns_pure
  exact returns_then returns_lift (returns_then returns_lift (returns_then hlast returns_pure))

/-- The nodes that have been looked at, and the state in which the others are. -/
structure Unlinking (m : Memory T) (looked rest : List Ref) (m' : Memory T) : Prop where
  queue : m'.Queue (m.waiting looked ++ rest)
  removed : ∀ a ∈ looked, m.waitStatus a ≠ CONDITION → m'.nextWaiter a = none
  same : m.SameBut (looked ++ rest) m'

theorem Unlinking.turn {looked : List Ref} (t : T) (input : Input) (hnodup : (looked ++ a :: rest).Nodup)
    (h : Unlinking m looked (a :: rest) m') :
    ∃ m'', Runs t input m' (unlinkTurn (some a, (m.waiting looked).getLast?)) m''
        (.inl (rest.head?, (m.waiting (looked ++ [a])).getLast?)) ∧
      Unlinking m (looked ++ [a]) rest m'' := by
  have hnext : m'.nextWaiter a = rest.head? := next_of_leads h.queue.leads
  have hstatus : m'.waitStatus = m.waitStatus := h.same.waitStatus
  have hseen : a ∉ looked := fun hmem =>
    List.disjoint_of_nodup_append hnodup hmem List.mem_cons_self
  by_cases hwaits : m.waitStatus a = CONDITION
  · have hwaiting : m.waiting (looked ++ [a]) = m.waiting looked ++ [a] := by
      simp [Memory.waiting, hwaits]
    refine ⟨m', ?_, ?_, ?_, ?_⟩
    · rw [hwaiting, List.getLast?_concat, ← hnext]
      exact unlinkTurn_waiting _ (hstatus ▸ hwaits)
    · rw [hwaiting, ← List.append_cons]
      exact h.queue
    · intro b hb hnot
      rcases List.mem_append.mp hb with hold | hnew
      · exact h.removed b hold hnot
      · obtain rfl := List.mem_singleton.mp hnew
        exact absurd hwaits hnot
    · rw [← List.append_cons]
      exact h.same
  · have hwaiting : m.waiting (looked ++ [a]) = m.waiting looked := by
      simp [Memory.waiting, hwaits]
    have htrail : ∀ b, b ∉ m.waiting looked → (m.waiting looked).getLast? ≠ some b :=
      fun b hb hlast => hb (List.mem_of_getLast? hlast)
    refine ⟨m'.unlink (m.waiting looked).getLast? a, ?_, ?_, ?_, ?_⟩
    · rw [hwaiting, ← hnext]
      exact unlinkTurn_cancelled _ (hstatus ▸ hwaits)
    · rw [hwaiting]
      exact h.queue.unlink
    · intro b hb hnot
      rcases List.mem_append.mp hb with hold | hnew
      · have hba : b ≠ a := fun heq => hseen (heq ▸ hold)
        rw [Memory.nextWaiter_unlink_of_ne _ hba (htrail b ?_)]
        · exact h.removed b hold hnot
        · simp [Memory.waiting, hnot]
      · obtain rfl := List.mem_singleton.mp hnew
        refine Memory.nextWaiter_unlink_self _ (htrail b ?_)
        simp [Memory.waiting, hnot]
    · refine ⟨?_, ?_, ?_⟩
      · rw [Memory.waitStatus_unlink]
        exact hstatus
      · rw [Memory.fresh_unlink]
        exact h.same.fresh
      · intro b hb
        rw [← List.append_cons] at hb
        have hba : b ≠ a := by
          rintro rfl
          exact hb (by simp)
        rw [Memory.nextWaiter_unlink_of_ne _ hba (htrail b ?_)]
        · exact h.same.nextWaiter b hb
        · exact fun hmem => hb (List.mem_append_left _ (List.mem_of_mem_filter hmem))

theorem Unlinking.loop {looked : List Ref} (t : T) (input : Input) (hnodup : (looked ++ rest).Nodup)
    (h : Unlinking m looked rest m') :
    ∃ m'', Runs t input m' (forever unlinkTurn (rest.head?, (m.waiting looked).getLast?)) m'' () ∧
      Unlinking m (looked ++ rest) [] m'' := by
  induction rest generalizing looked m' with
  | nil =>
    rw [List.append_nil]
    exact ⟨m', returns_forever_inr returns_pure, h⟩
  | cons a rest ih =>
    obtain ⟨m₁, hturn, hafter⟩ := h.turn t input hnodup
    rw [List.append_cons] at hnodup ⊢
    obtain ⟨m₂, hrest, hend⟩ := ih hnodup hafter
    exact ⟨m₂, returns_forever_inl hturn hrest, hend⟩

/-- What is left of the queue by `unlinkCancelledWaiters`. -/
structure LinkedOut (m : Memory T) (l : List Ref) (m' : Memory T) : Prop where
  queue : m'.Queue (m.waiting l)
  removed : ∀ a ∈ l, m.waitStatus a ≠ CONDITION → m'.nextWaiter a = none
  same : m.SameBut l m'

theorem unlinkCancelledWaiters_linkedOut (t : T) (input : Input) (h : m.Queue l) :
    ∃ m', Runs t input m unlinkCancelledWaiters m' () ∧ LinkedOut m l m' := by
  have hstart : Unlinking m [] l m := ⟨h, fun a ha => absurd ha List.not_mem_nil, .refl⟩
  have hnodup : ([] ++ l).Nodup := h.leads.nodup
  obtain ⟨m', hloop, hqueue, hremoved, hsame⟩ := hstart.loop t input hnodup
  rw [List.append_nil] at hqueue hsame
  refine ⟨m', ?_, hqueue, hremoved, hsame⟩
  rw [unlinkCancelledWaiters_eq]
  refine returns_then returns_lift ?_
  have hfirst : m.field .firstWaiter = l.head? := h.leads.head_eq
  rw [← hfirst] at hloop
  exact hloop

/-! ## A new waiter -/

/-- The nodes of the queue have been allocated. -/
def Memory.Allocated (m : Memory T) (l : List Ref) : Prop := ∀ a ∈ l, a < m.fresh

/-- The last node is looked at, and only if it does not wait, all are. -/
theorem lastWaiting_runs (t : T) (input : Input) (h : m.Queue l) :
    ∃ m' l', Runs t input m (lastWaiting l.getLast?) m' l'.getLast? ∧ m'.Queue l' ∧
      l'.Sublist l ∧ m.waiting l' = m.waiting l ∧ m.SameBut l m' := by
  cases hlast : l.getLast? with
  | none =>
    refine ⟨m, l, ?_, h, List.Sublist.refl l, rfl, .refl⟩
    rw [hlast]
    exact returns_pure
  | some b =>
    by_cases hwaits : m.waitStatus b = CONDITION
    · refine ⟨m, l, ?_, h, List.Sublist.refl l, rfl, .refl⟩
      rw [hlast]
      refine returns_then returns_lift ?_
      change Returns _ m (if m.waitStatus b ≠ CONDITION then _ else _) _ _
      rw [if_neg (not_not.mpr hwaits)]
      exact returns_pure
    · obtain ⟨m', hruns, hqueue, -, hsame⟩ := unlinkCancelledWaiters_linkedOut t input h
      refine ⟨m', m.waiting l, ?_, hqueue, List.filter_sublist, ?_, hsame⟩
      · refine returns_then returns_lift ?_
        change Returns _ m (if m.waitStatus b ≠ CONDITION then _ else _) _ _
        rw [if_pos hwaits, ← hqueue.last]
        exact returns_then hruns returns_lift
      · rw [Memory.waiting, Memory.waiting, List.filter_filter]
        simp

omit [DecidableEq T] in
/-- A new node is linked in behind the last one. -/
theorem Memory.Queue.append (h : m.Queue l) (hfresh : m.Allocated l) (thread : Option T) :
    (((m.newNode thread CONDITION none).follow l.getLast? (some m.fresh)).set .lastWaiter
      (some m.fresh)).Queue (l ++ [m.fresh]) := by
  have hnot : m.fresh ∉ l := fun hmem => Nat.lt_irrefl _ (hfresh _ hmem)
  have hnew : (m.newNode thread CONDITION none).nextWaiter =
      Function.update m.nextWaiter m.fresh none := by
    funext b
    simp [Memory.nextWaiter, Function.update_apply]
  have hleads : Leads (m.newNode thread CONDITION none).nextWaiter
      ((m.newNode thread CONDITION none).field .firstWaiter) l none := by
    rw [hnew, leads_update hnot]
    simpa using h.leads
  have hnone : (m.newNode thread CONDITION none).nextWaiter m.fresh = none := by
    rw [hnew, Function.update_self]
  refine ⟨?_, ?_⟩
  · rw [Memory.nextWaiter_set_lastWaiter]
    rcases List.eq_nil_or_concat l with rfl | ⟨xs, b, rfl⟩
    · rw [List.getLast?_nil, Memory.follow, Option.elim_none, Memory.nextWaiter_set_firstWaiter]
      simpa using hnone
    · rw [List.concat_eq_append] at hnot hleads ⊢
      rw [List.getLast?_concat, Memory.follow, Option.elim_some,
        Memory.nextWaiter_set_nextWaiter, List.append_assoc]
      simpa using hleads.insert_last hnot hnone
  · simp

/-- The new node is the last one, behind all nodes that wait. -/
structure Added (m : Memory T) (l : List Ref) (m' : Memory T) (node : Ref) : Prop where
  queue : ∃ l', m'.Queue (l' ++ [node]) ∧ l'.Sublist l ∧ m.waiting l' = m.waiting l
  waits : m'.waitStatus node = CONDITION
  new : node ∉ l
  old : ∀ a ∈ l, m'.waitStatus a = m.waitStatus a

theorem addConditionWaiter_added (t : T) (input : Input) (h : m.Queue l) (hfresh : m.Allocated l) :
    ∃ m', Runs t input m (addConditionWaiter t) m' m.fresh ∧ Added m l m' m.fresh := by
  obtain ⟨m₁, l', hruns, hqueue, hsublist, hwaiting, hsame⟩ := lastWaiting_runs t input h
  have hallocated : m₁.Allocated l' := fun a ha => by
    rw [hsame.fresh]
    exact hfresh a (hsublist.subset ha)
  have hnew (b : Ref) : ((m₁.newNode (some t) CONDITION none).follow l'.getLast?
      (some m₁.fresh)).waitStatus b = if b = m.fresh then CONDITION else m.waitStatus b := by
    rw [← hsame.fresh, ← hsame.waitStatus]
    exact m₁.waitStatus_newNode (some t) CONDITION none b
  have hruns' : Runs t input m (addConditionWaiter t)
      (((m₁.newNode (some t) CONDITION none).follow l'.getLast? (some m₁.fresh)).set .lastWaiter
        (some m₁.fresh)) m₁.fresh := by
    refine returns_then returns_lift ?_
    change Returns _ m (lastWaiting (m.field .lastWaiter) >>= _) _ _
    rw [h.last]
    exact returns_then hruns (returns_then returns_lift (returns_then returns_lift
      (returns_then returns_lift returns_pure)))
  have happend := hqueue.append hallocated (some t)
  rw [hsame.fresh] at hruns' happend
  refine ⟨_, hruns', ⟨l', happend, hsublist, hwaiting⟩, ?_, ?_, ?_⟩
  · rw [← hsame.fresh]
    exact (hnew _).trans (if_pos hsame.fresh)
  · exact fun hmem => Nat.lt_irrefl _ (hfresh _ hmem)
  · intro a ha
    rw [← hsame.fresh]
    exact (hnew a).trans (if_neg (Nat.ne_of_lt (hfresh a ha)))

/-- Both methods return on any queue. The first one leaves the nodes that wait, the second one
loses none of them and appends its own. -/
theorem waiters_kept (t : T) (input : Input) (m : Memory T) (l : List Ref) (h : m.Queue l) :
    (∃ m', Runs t input m unlinkCancelledWaiters m' () ∧ LinkedOut m l m') ∧
      (m.Allocated l →
        ∃ m', Runs t input m (addConditionWaiter t) m' m.fresh ∧ Added m l m' m.fresh) :=
  ⟨unlinkCancelledWaiters_linkedOut t input h, addConditionWaiter_added t input h⟩

end Loop

/-- The second one of three waiters was cancelled. -/
def threeWaiters : Memory Unit :=
  { (Memory.start : Memory Unit) with
    field := fun
      | .firstWaiter => some 1
      | .lastWaiter => some 3
      | .nextWaiter 1 => some 2
      | .nextWaiter 2 => some 3
      | _ => none
    waitStatus := fun a => if a = 2 then CANCELLED else CONDITION
    fresh := 4 }

theorem waiters_kept_three :
    (∃ m', Runs () ⟨0, false, false, 0⟩ threeWaiters unlinkCancelledWaiters m' () ∧
        LinkedOut threeWaiters [1, 2, 3] m') ∧
      ∃ m', Runs () ⟨0, false, false, 0⟩ threeWaiters (addConditionWaiter ()) m' 4 ∧
        Added threeWaiters [1, 2, 3] m' 4 := by
  have h := waiters_kept () ⟨0, false, false, 0⟩ threeWaiters [1, 2, 3]
    ⟨⟨rfl, rfl, rfl, rfl⟩, rfl⟩
  have hallocated : threeWaiters.Allocated [1, 2, 3] := by
    unfold Memory.Allocated
    decide
  exact ⟨h.1, h.2 hallocated⟩

end BigPlan.QueuedSynchronizer
