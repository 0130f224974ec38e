import BigPlan.Lock.Situation

/-!
# Every queued thread can get the lock

From every state of a run the threads can go on in such a way that a thread in the queue gets the
lock: one thread after the other, as far as it comes, until the thread before it in the queue has
released the lock.
-/
namespace BigPlan.QueuedSynchronizer.Exclusive

open Lib Lib.Chain Program Node Lib.Runs

variable {T : Type} [DecidableEq T] {t : T}

namespace Situation

variable {c c' c'' : Situation T} {u r : T} {n m h : Ref} {p q : Place T}

/-- The thread comes to the place, and the queue, its links and the state are as before. -/
structure Looks (c : Situation T) (t : T) (q : Place T) (c' : Situation T) : Prop where
  leads : c.LeadsTo c'
  place : c'.place = Function.update c.place t q
  links : c'.links = c.links
  state : c'.shared.state = c.shared.state

theorem exists_looks_of (R : Shared T → Prop) (hplace : c.place t = p)
    (hparks : ∀ n q, p = .waiting n (.park q) → c.shared.permit t = true)
    (hnext : ∀ x' p', Moves t c.shared p x' p' →
      p' = q ∧ x'.links = c.links ∧ x'.state = c.shared.state ∧ R x') :
    ∃ c', c.Looks t q c' ∧ R c'.shared := by
  obtain ⟨p', c', ht⟩ := c.exists_takes t fun n q' h => hparks n q' (hplace.symm.trans h)
  have hm := ht.moves
  rw [hplace] at hm
  obtain ⟨rfl, hlinks, hstate, hR⟩ := hnext _ _ hm
  exact ⟨c', ⟨ht.leads, ht.place, hlinks, hstate⟩, hR⟩

theorem exists_looks (hplace : c.place t = p)
    (hparks : ∀ n q, p = .waiting n (.park q) → c.shared.permit t = true)
    (hnext : ∀ x' p', Moves t c.shared p x' p' →
      p' = q ∧ x'.links = c.links ∧ x'.state = c.shared.state) : ∃ c', c.Looks t q c' := by
  obtain ⟨c', hl, -⟩ := exists_looks_of (fun _ => True) hplace hparks fun x' p' hm => by
    obtain ⟨hq, hlinks, hstate⟩ := hnext x' p' hm
    exact ⟨hq, hlinks, hstate, trivial⟩
  exact ⟨c', hl⟩

namespace Looks

variable (hl : c.Looks t q c')
include hl

theorem place_self : c'.place t = q := by
  rw [hl.place, Function.update_self]

theorem place_of_ne (hut : u ≠ t) : c'.place u = c.place u := by
  rw [hl.place, Function.update_of_ne hut]

theorem waiting : c'.waiting = c.waiting :=
  waiting_eq (congrArg Links.queued hl.links) (congrArg Links.promoted hl.links)

theorem trans {q' : Place T} (hl' : c'.Looks t q' c'') : c.Looks t q' c'' where
  leads := hl.leads.trans hl'.leads
  place := by rw [hl'.place, hl.place, Function.update_idem]
  links := hl'.links.trans hl.links
  state := hl'.state.trans hl.state

end Looks

/-! ## Waking the first thread -/

/-- The node is the first one in the queue, behind the head. -/
structure First (c : Situation T) (u : T) (n h : Ref) : Prop where
  waits : (u, n) ∈ c.waiting
  head : c.links.head = some h
  prev : c.links.prev n = some h

theorem First.of_looks (hf : c.First u n h) (hl : c.Looks t q c') : c'.First u n h where
  waits := hl.waiting ▸ hf.waits
  head := hl.links ▸ hf.head
  prev := hl.links ▸ hf.prev

/-- The thread can go on until it has unparked the other one. -/
def Unparks (c : Situation T) (r u : T) : Prop :=
  ∃ q c', c.Looks r q c' ∧ c'.shared.permit u = true

theorem Unparks.of_looks (hl : c.Looks r q c') (h : c'.Unparks r u) : c.Unparks r u := by
  obtain ⟨q', c'', hl', hpermit⟩ := h
  exact ⟨q', c'', hl.trans hl', hpermit⟩

theorem unparks_of_unpark (hplace : c.place r = .unpark (some u)) : c.Unparks r u := by
  obtain ⟨c', hl, hpermit⟩ := exists_looks_of (q := .released)
    (fun x => x.permit u = true) hplace nofun fun x' p' hm => by
      cases hm with
      | unparks => exact ⟨rfl, rfl, rfl, Function.update_self ..⟩
      | reads hr => cases hr
  exact ⟨_, c', hl, hpermit⟩

theorem unparks_of_getThread (hf : c.First u n h)
    (hplace : c.place r = .waking h (.getThread n)) : c.Unparks r u := by
  have hthread : c.shared.memory.thread n = some u := c.follows.inv.linked.threads u n hf.waits
  obtain ⟨c', hl⟩ := exists_looks (q := .unpark (some u)) hplace nofun fun x' p' hm => by
    cases hm with
    | reads hr =>
      cases hr with
      | waking hw => cases hw
      | readsThread => exact ⟨congrArg _ hthread, rfl, rfl⟩
  exact .of_looks hl (unparks_of_unpark hl.place_self)

theorem unparks_of_getNextStatus (hf : c.First u n h)
    (hplace : c.place r = .waking h (.getNextStatus n)) : c.Unparks r u := by
  obtain ⟨c', hl⟩ := exists_looks (q := .waking h (.getThread n)) hplace nofun fun x' p' hm => by
    cases hm with
    | reads hr =>
      cases hr with
      | waking hw => 
        cases hw
        exact ⟨rfl, rfl, rfl⟩
  exact .of_looks hl (unparks_of_getThread (hf.of_looks hl) hl.place_self)

omit [DecidableEq T] in
theorem First.exists_queue (hf : c.First u n h) : ∃ last, Queue c.links c.waiting h last :=
  c.follows.inv.linked.queue h hf.head

omit [DecidableEq T] in
/-- A node that is not the last one on the way to the head leads to the next one. -/
theorem First.prev_eq (hf : c.First u n h) {a b : Ref} {xs ys : List Ref}
    (hnodes : nodesOf c.waiting ++ [h] = xs ++ a :: b :: ys) :
    a ∈ nodesOf c.waiting ∧ a ≠ h ∧ c.links.prev a = some b := by
  obtain ⟨last, hq⟩ := hf.exists_queue
  have hall : nodesOf c.waiting ++ h :: last = xs ++ a :: (b :: ys ++ last) := by
    rw [List.append_cons, hnodes, List.append_assoc]
    rfl
  have hleads := hq.leads
  rw [hall] at hleads
  have hprev : c.links.prev a = some b := next_of_leads hleads
  have ha : a ∈ nodesOf c.waiting := by
    obtain ⟨zs, z, hzs⟩ := (List.eq_nil_or_concat' (b :: ys)).resolve_left (List.cons_ne_nil b ys)
    rw [hzs, ← List.cons_append, ← List.append_assoc] at hnodes
    rw [(List.append_inj' hnodes rfl).1]
    exact List.mem_append_right _ List.mem_cons_self
  refine ⟨ha, ?_, hprev⟩
  rintro rfl
  exact hq.head_notMem ha

omit [DecidableEq T] in
/-- Only the first node leads to the head. -/
theorem First.eq_of_prev (hf : c.First u n h) {a : Ref} (ha : a ∈ nodesOf c.waiting)
    (hprev : c.links.prev a = some h) : a = n := by
  obtain ⟨last, hq⟩ := hf.exists_queue
  exact hq.eq_of_prev ha (mem_nodesOf.mpr ⟨u, hf.waits⟩) hprev hf.prev

theorem looks_of_getCursorStatus {a : Ref} {s : Option Ref}
    (hplace : c.place r = .waking h (.getCursorStatus a s)) :
    ∃ ws ≤ 0, ∃ c', c.Looks r (.waking h (.getCursorPrev a ws s)) c' := by
  refine ⟨_, Int.not_lt.mp (c.follows.inv.calm.not_pos a), exists_looks hplace nofun ?_⟩
  intro x' p' hm
  cases hm with
  | reads hr =>
    cases hr with
    | waking hw =>
      cases hw
      exact ⟨rfl, rfl, rfl⟩

theorem looks_of_getCursorPrev {a b : Ref} {ws : ℤ} {s : Option Ref} (hws : ws ≤ 0)
    (hprev : c.links.prev a = some b)
    (hplace : c.place r = .waking h (.getCursorPrev a ws s)) :
    ∃ c', c.Looks r (.waking h (.loop (some b) (some a))) c' := by
  refine exists_looks hplace nofun ?_
  intro x' p' hm
  cases hm with
  | reads hr =>
    cases hr with
    | waking hw =>
      cases hw
      rw [if_pos hws]
      exact ⟨congrArg (fun v => Place.waking h (.loop v (some a))) hprev, rfl, rfl⟩

/-- The search from the tail passes the nodes one by one, and ends at the first one. -/
theorem unparks_of_loop (hf : c.First u n h) {a : Ref} {s : Option Ref} {xs ys : List Ref}
    (hnodes : nodesOf c.waiting ++ [h] = xs ++ a :: ys) (hs : a = h → s = some n)
    (hplace : c.place r = .waking h (.loop (some a) s)) : c.Unparks r u := by
  induction ys generalizing c xs a s with
  | nil =>
    obtain rfl : h = a := List.singleton_inj.mp (List.append_inj' hnodes rfl).2
    obtain rfl := hs rfl
    obtain ⟨c', hl⟩ := exists_looks (q := .waking h (.getThread n)) hplace nofun fun x' p' hm => by
      cases hm with
      | reads hr =>
        cases hr with
        | waking hw =>
          cases hw with
          | goesOn hne => exact absurd rfl hne
          | finds hend => exact ⟨rfl, rfl, rfl⟩
    exact .of_looks hl (unparks_of_getThread (hf.of_looks hl) hl.place_self)
  | cons b ys ih =>
    obtain ⟨ha, hah, hprev⟩ := hf.prev_eq hnodes
    have hgoes : ¬ (some a = none ∨ some a = some h) := by simp [hah]
    obtain ⟨c₁, hl₁⟩ := exists_looks (q := .waking h (.getCursorStatus a s)) hplace nofun
      fun x' p' hm => by
        cases hm with
        | reads hr =>
          cases hr with
          | waking hw =>
            cases hw with
            | goesOn hne => exact ⟨rfl, rfl, rfl⟩
            | finds hend => exact absurd hend hgoes
          | findsNone hend => exact absurd hend hgoes
    obtain ⟨ws, hws, c₂, hl₂⟩ := looks_of_getCursorStatus hl₁.place_self
    have hl₁₂ := hl₁.trans hl₂
    obtain ⟨c₃, hl₃⟩ := looks_of_getCursorPrev hws (hl₁₂.links ▸ hprev) hl₂.place_self
    have hl := hl₁₂.trans hl₃
    have hnodes₃ : nodesOf c₃.waiting ++ [h] = (xs ++ [a]) ++ b :: ys := by
      rw [hl.waiting, hnodes, List.append_cons]
    refine .of_looks hl (ih (hf.of_looks hl) hnodes₃ ?_ hl₃.place_self)
    rintro rfl
    rw [hf.eq_of_prev ha hprev]

theorem unparks_of_getCursorPrev (hf : c.First u n h) {a : Ref} {ws : ℤ} {s : Option Ref}
    (ha : a ∈ nodesOf c.waiting) (hws : ws ≤ 0)
    (hplace : c.place r = .waking h (.getCursorPrev a ws s)) : c.Unparks r u := by
  obtain ⟨last, hq⟩ := hf.exists_queue
  obtain ⟨b, hb, hprev⟩ := hq.exists_prev ha
  obtain ⟨xs, ys, hnodes⟩ := List.append_of_mem hb
  obtain ⟨c', hl⟩ := looks_of_getCursorPrev hws hprev hplace
  refine .of_looks hl (unparks_of_loop (hf.of_looks hl) (hl.waiting ▸ hnodes) ?_ hl.place_self)
  rintro rfl
  rw [hf.eq_of_prev ha hprev]

theorem unparks_of_getCursorStatus (hf : c.First u n h) {a : Ref} {s : Option Ref}
    (ha : a ∈ nodesOf c.waiting) (hplace : c.place r = .waking h (.getCursorStatus a s)) :
    c.Unparks r u := by
  obtain ⟨ws, hws, c', hl⟩ := looks_of_getCursorStatus hplace
  exact .of_looks hl (unparks_of_getCursorPrev (hf.of_looks hl) (hl.waiting ▸ ha) hws
    hl.place_self)

theorem unparks_of_getTail (hf : c.First u n h) (hplace : c.place r = .waking h .getTail) :
    c.Unparks r u := by
  obtain ⟨last, hq⟩ := hf.exists_queue
  have hn := mem_nodesOf.mpr ⟨u, hf.waits⟩
  obtain ⟨a, ys, hnodes⟩ := List.exists_cons_of_ne_nil (List.ne_nil_of_mem hn)
  have htail : c.shared.memory.field .tail = some a := by
    obtain htail | ⟨-, hnil⟩ := hq.tail
    · rwa [hnodes] at htail
    · rw [hnil] at hn
      cases hn
  obtain ⟨c', hl⟩ := exists_looks (q := .waking h (.loop (some a) none)) hplace nofun
    fun x' p' hm => by
      cases hm with
      | reads hr =>
        cases hr with
        | waking hw =>
          cases hw
          exact ⟨by rw [htail], rfl, rfl⟩
  have hnodes' : nodesOf c'.waiting ++ [h] = [] ++ a :: (ys ++ [h]) := by
    rw [hl.waiting, hnodes]
    rfl
  refine .of_looks hl (unparks_of_loop (hf.of_looks hl) hnodes' ?_ hl.place_self)
  rintro rfl
  exact absurd (hnodes ▸ List.mem_cons_self) hq.head_notMem

theorem unparks_of_getNext (hf : c.First u n h) (hplace : c.place r = .waking h .getNext) :
    c.Unparks r u := by
  cases hnext : c.shared.memory.field (.next h) with
  | none =>
    obtain ⟨c', hl⟩ := exists_looks (q := .waking h .getTail) hplace nofun fun x' p' hm => by
      cases hm with
      | reads hr =>
        cases hr with
        | waking hw =>
          cases hw with
          | readsNext hsome => cases hnext.symm.trans hsome
          | readsNoNext hnone => exact ⟨rfl, rfl, rfl⟩
    exact .of_looks hl (unparks_of_getTail (hf.of_looks hl) hl.place_self)
  | some a =>
    obtain ⟨last, hq⟩ := hf.exists_queue
    obtain ⟨ha, hprev⟩ := hq.next h (by simp) a hnext
    obtain rfl := hq.eq_of_prev ha (mem_nodesOf.mpr ⟨u, hf.waits⟩) hprev hf.prev
    obtain ⟨c', hl⟩ := exists_looks (q := .waking h (.getNextStatus a)) hplace nofun
      fun x' p' hm => by
        cases hm with
        | reads hr =>
          cases hr with
          | waking hw =>
            cases hw with
            | readsNext hsome =>
              cases hnext.symm.trans hsome
              exact ⟨rfl, rfl, rfl⟩
            | readsNoNext hnone => cases hnext.symm.trans hnone
    exact .of_looks hl (unparks_of_getNextStatus (hf.of_looks hl) hl.place_self)

theorem unparks_of_casStatus (hf : c.First u n h) {ws : ℤ}
    (hplace : c.place r = .waking h (.casStatus ws)) : c.Unparks r u := by
  obtain ⟨c', hl⟩ := exists_looks (q := .waking h .getNext) hplace nofun fun x' p' hm => by
    cases hm with
    | resets => exact ⟨rfl, rfl, rfl⟩
    | reads hr =>
      cases hr with
      | waking hw =>
        cases hw
        exact ⟨rfl, rfl, rfl⟩
  exact .of_looks hl (unparks_of_getNext (hf.of_looks hl) hl.place_self)

theorem unparks_of_getStatus (hf : c.First u n h)
    (hplace : c.place r = .waking h .getStatus) : c.Unparks r u := by
  by_cases hws : c.shared.memory.waitStatus h < 0
  · obtain ⟨c', hl⟩ := exists_looks (q := .waking h (.casStatus (c.shared.memory.waitStatus h)))
      hplace nofun fun x' p' hm => by
        cases hm with
        | reads hr =>
          cases hr with
          | waking hw =>
            cases hw with
            | signalled _ => exact ⟨rfl, rfl, rfl⟩
            | unsignalled hnot => exact absurd hws hnot
    exact .of_looks hl (unparks_of_casStatus (hf.of_looks hl) hl.place_self)
  · obtain ⟨c', hl⟩ := exists_looks (q := .waking h .getNext) hplace nofun fun x' p' hm => by
      cases hm with
      | reads hr =>
        cases hr with
        | waking hw =>
          cases hw with
          | signalled hneg => exact absurd hneg hws
          | unsignalled _ => exact ⟨rfl, rfl, rfl⟩
    exact .of_looks hl (unparks_of_getNext (hf.of_looks hl) hl.place_self)

theorem unparks_of_getHeadStatus (hf : c.First u n h) (hws : c.shared.memory.waitStatus h = SIGNAL)
    (hplace : c.place r = .getHeadStatus h) : c.Unparks r u := by
  obtain ⟨c', hl⟩ := exists_looks (q := .waking h .getStatus) hplace nofun fun x' p' hm => by
    cases hm with
    | reads hr =>
      cases hr with
      | signalled _ => exact ⟨rfl, rfl, rfl⟩
      | unsignalled hzero =>
        rw [hws] at hzero
        cases hzero
  exact .of_looks hl (unparks_of_getStatus (hf.of_looks hl) hl.place_self)

theorem unparks_of_getHead (hf : c.First u n h) (hws : c.shared.memory.waitStatus h = SIGNAL)
    (hplace : c.place r = .getHead) : c.Unparks r u := by
  obtain ⟨c', hl, hws'⟩ := exists_looks_of (q := .getHeadStatus h)
    (fun x => x.memory.waitStatus h = SIGNAL) hplace nofun fun x' p' hm => by
      cases hm with
      | reads hr =>
        cases hr with
        | readsHead hhead =>
          cases hhead.symm.trans hf.head
          exact ⟨rfl, rfl, rfl, hws⟩
        | readsNoHead hnone => cases hnone.symm.trans hf.head
  exact .of_looks hl (unparks_of_getHeadStatus (hf.of_looks hl) hws' hl.place_self)

/-- A thread that is on the way to wake the first one gets there. -/
theorem unparks_of_wakes (hf : c.First u n h) (hw : (c.place r).Wakes c.waiting u n h) :
    c.Unparks r u := by
  obtain ⟨last, hq⟩ := hf.exists_queue
  cases hplace : c.place r with
  | waking m w =>
    rw [hplace] at hw
    obtain ⟨rfl, hw⟩ := hw
    cases w with
    | getStatus => exact unparks_of_getStatus hf hplace
    | casStatus ws => exact unparks_of_casStatus hf hplace
    | getNext => exact unparks_of_getNext hf hplace
    | getNextStatus s =>
      obtain rfl : s = n := hw
      exact unparks_of_getNextStatus hf hplace
    | getTail => exact unparks_of_getTail hf hplace
    | loop a s =>
      obtain ⟨b, hb, rfl⟩ | ⟨rfl, rfl⟩ := hw
      · obtain ⟨xs, ys, hnodes⟩ := List.append_of_mem (List.mem_append_left [m] hb)
        refine unparks_of_loop hf hnodes (fun hbm => ?_) hplace
        exact absurd (hbm ▸ hb) hq.head_notMem
      · exact unparks_of_loop hf rfl (fun _ => rfl) hplace
    | getCursorStatus a s => exact unparks_of_getCursorStatus hf hw hplace
    | getCursorPrev a ws s => exact unparks_of_getCursorPrev hf hw.1 hw.2 hplace
    | getThread s =>
      obtain rfl : s = n := hw
      exact unparks_of_getThread hf hplace
  | unpark thread =>
    rw [hplace] at hw
    obtain rfl : thread = some u := hw
    exact unparks_of_unpark hplace
  | _ =>
    rw [hplace] at hw
    exact hw.elim

/-- A thread that has released the lock, and is going to find the signal, wakes the first one. -/
theorem unparks_of_finds (hf : c.First u n h) (hws : c.shared.memory.waitStatus h = SIGNAL)
    (hr : (c.place r).Finds h) : c.Unparks r u := by
  cases hplace : c.place r with
  | getHead => exact unparks_of_getHead hf hws hplace
  | getHeadStatus m =>
    rw [hplace] at hr
    obtain rfl : m = h := hr
    exact unparks_of_getHeadStatus hf hws hplace
  | _ =>
    rw [hplace] at hr
    exact hr.elim

/-! ## The first thread -/

/-- The first thread is parked while the lock is free: it has a permit, or another thread can go on
until it has. -/
theorem exists_permit (hf : c.First u n h) (hstate : c.shared.state = 0)
    (hplace : c.place u = .waiting n (.park h)) :
    ∃ c', c.LeadsTo c' ∧ c'.First u n h ∧ c'.shared.state = 0 ∧
      c'.place u = .waiting n (.park h) ∧ c'.waiting = c.waiting ∧ c'.shared.permit u = true := by
  have hunparks : c.shared.permit u = true ∨ ∃ r ≠ u, c.Unparks r u := by
    have hwoken (hw : Woken c.shared c.place c.waiting u n h) :
        c.shared.permit u = true ∨ ∃ r ≠ u, c.Unparks r u := by
      obtain hpermit | ⟨r, hr⟩ := hw
      · exact Or.inl hpermit
      · refine Or.inr ⟨r, ?_, unparks_of_wakes hf hr⟩
        rintro rfl
        rw [hplace] at hr
        exact hr
    obtain hws | hw := c.follows.awake.signalled u n h hplace
    · obtain hw | ⟨r, hr⟩ := c.follows.awake.freed u n h hstate hf.head hws (Or.inl hplace)
      · exact hwoken hw
      · refine Or.inr ⟨r, ?_, unparks_of_finds hf hws hr⟩
        rintro rfl
        rw [hplace] at hr
        exact hr
    · exact hwoken hw
  obtain hpermit | ⟨r, hru, q, c', hl, hpermit⟩ := hunparks
  · exact ⟨c, Reaches.refl _, hf, hstate, hplace, rfl, hpermit⟩
  · exact ⟨c', hl.leads, hf.of_looks hl, hl.state.trans hstate,
      (hl.place_of_ne hru.symm).trans hplace, hl.waiting, hpermit⟩

/-- The thread comes to the place, and the queue is as before. -/
structure Passes (c : Situation T) (t : T) (q : Place T) (c' : Situation T) : Prop where
  leads : c.LeadsTo c'
  place_self : c'.place t = q
  waiting : c'.waiting = c.waiting

theorem Looks.passes (hl : c.Looks t q c') : c.Passes t q c' := ⟨hl.leads, hl.place_self, hl.waiting⟩

theorem Passes.trans {q' : Place T} (hp : c.Passes t q c') (hp' : c'.Passes t q' c'') :
    c.Passes t q' c'' :=
  ⟨hp.leads.trans hp'.leads, hp'.place_self, hp'.waiting.trans hp.waiting⟩

theorem exists_passes_of (R : Shared T → Prop) (hplace : c.place t = p)
    (hparks : ∀ n q, p = .waiting n (.park q) → c.shared.permit t = true)
    (hnext : ∀ x' p', Moves t c.shared p x' p' →
      p' = q ∧ x'.queued = c.shared.queued ∧ x'.promoted = c.shared.promoted ∧ R x') :
    ∃ c', c.Passes t q c' ∧ R c'.shared := by
  obtain ⟨p', c', ht⟩ := c.exists_takes t fun n q' h => hparks n q' (hplace.symm.trans h)
  have hm := ht.moves
  rw [hplace] at hm
  obtain ⟨rfl, hqueued, hpromoted, hR⟩ := hnext _ _ hm
  exact ⟨c', ⟨ht.leads, ht.place_self, waiting_eq hqueued hpromoted⟩, hR⟩

/-- The thread can go on until it has the lock, as the first one in the queue. -/
def Wins (c : Situation T) (u : T) (n h : Ref) : Prop :=
  ∃ c', c.Passes u (.promoting n h .setHead) c'

theorem Wins.of_passes (hp : c.Passes u q c') (hw : c'.Wins u n h) : c.Wins u n h := by
  obtain ⟨c'', hp'⟩ := hw
  exact ⟨c'', hp.trans hp'⟩

theorem Wins.of_looks (hl : c.Looks u q c') (hw : c'.Wins u n h) : c.Wins u n h :=
  hw.of_passes hl.passes

theorem wins_of_tryAcquire (hstate : c.shared.state = 0)
    (hplace : c.place u = .waiting n (.tryAcquire h)) : c.Wins u n h := by
  obtain ⟨c', hp, -⟩ := exists_passes_of (q := .promoting n h .setHead) (fun _ => True) hplace
    nofun fun x' p' hm => by
      cases hm with
      | wins _ => exact ⟨rfl, rfl, rfl, trivial⟩
      | reads hr =>
        cases hr with
        | waiting hw =>
          cases hw with
          | fails hne => exact absurd hstate hne
  exact ⟨c', hp⟩

theorem wins_of_getHead (hf : c.First u n h) (hstate : c.shared.state = 0)
    (hplace : c.place u = .waiting n (.getHead h)) : c.Wins u n h := by
  obtain ⟨c', hl⟩ := exists_looks (q := .waiting n (.tryAcquire h)) hplace nofun
    fun x' p' hm => by
      cases hm with
      | reads hr =>
        cases hr with
        | waiting hw =>
          cases hw with
          | atHead _ => exact ⟨rfl, rfl, rfl⟩
          | notAtHead hne => exact absurd hf.head hne
  exact .of_looks hl (wins_of_tryAcquire (hl.state.trans hstate) hl.place_self)

theorem wins_of_getPrev (hf : c.First u n h) (hstate : c.shared.state = 0)
    (hplace : c.place u = .waiting n .getPrev) : c.Wins u n h := by
  obtain ⟨c', hl⟩ := exists_looks (q := .waiting n (.getHead h)) hplace nofun fun x' p' hm => by
    cases hm with
    | reads hr =>
      cases hr with
      | waiting hw =>
        cases hw with
        | readsPrev hprev =>
          cases hprev.symm.trans hf.prev
          exact ⟨rfl, rfl, rfl⟩
  exact .of_looks hl (wins_of_getHead (hf.of_looks hl) (hl.state.trans hstate) hl.place_self)

theorem wins_of_loop (hf : c.First u n h) (hstate : c.shared.state = 0)
    (hplace : c.place u = .waiting n .loop) : c.Wins u n h := by
  obtain ⟨c', hl⟩ := exists_looks (q := .waiting n .getPrev) hplace nofun fun x' p' hm => by
    cases hm with
    | reads hr =>
      cases hr with
      | waiting hw =>
        cases hw
        exact ⟨rfl, rfl, rfl⟩
  exact .of_looks hl (wins_of_getPrev (hf.of_looks hl) (hl.state.trans hstate) hl.place_self)

theorem wins_of_setNext (hf : c.First u n h) (hstate : c.shared.state = 0) {m : Ref}
    (hplace : c.place u = .waiting n (.setNext m)) : c.Wins u n h := by
  obtain ⟨c', hp, hstate', hhead, hprev⟩ := exists_passes_of (q := .waiting n .loop)
    (fun x => x.state = 0 ∧ x.links.head = some h ∧ x.links.prev n = some h) hplace nofun
    fun x' p' hm => by
      cases hm with
      | setsNext => exact ⟨rfl, rfl, rfl, hstate, hf.head, hf.prev⟩
      | reads hr =>
        cases hr with
        | waiting hw => cases hw
  exact .of_passes hp (wins_of_loop ⟨hp.waiting ▸ hf.waits, hhead, hprev⟩ hstate' hp.place_self)

theorem wins_of_interrupted (hf : c.First u n h) (hstate : c.shared.state = 0)
    (hplace : c.place u = .waiting n .interrupted) : c.Wins u n h := by
  obtain ⟨c', hl⟩ := exists_looks (q := .waiting n .loop) hplace nofun fun x' p' hm => by
    cases hm with
    | reads hr =>
      cases hr with
      | waiting hw =>
        cases hw
        exact ⟨rfl, rfl, rfl⟩
  exact .of_looks hl (wins_of_loop (hf.of_looks hl) (hl.state.trans hstate) hl.place_self)

theorem wins_of_casStatus (hf : c.First u n h) (hstate : c.shared.state = 0) {m : Ref} {ws : ℤ}
    (hplace : c.place u = .waiting n (.casStatus m ws)) : c.Wins u n h := by
  obtain ⟨c', hl⟩ := exists_looks (q := .waiting n .loop) hplace nofun fun x' p' hm => by
    cases hm with
    | signals => exact ⟨rfl, rfl, rfl⟩
    | reads hr =>
      cases hr with
      | waiting hw =>
        cases hw
        exact ⟨rfl, rfl, rfl⟩
  exact .of_looks hl (wins_of_loop (hf.of_looks hl) (hl.state.trans hstate) hl.place_self)

theorem wins_of_park (hf : c.First u n h) (hstate : c.shared.state = 0)
    (hplace : c.place u = .waiting n (.park h)) : c.Wins u n h := by
  obtain ⟨c₁, hleads, hf₁, hstate₁, hplace₁, hwaiting, hpermit⟩ := exists_permit hf hstate hplace
  obtain ⟨c₂, hl⟩ := exists_looks (q := .waiting n .interrupted) hplace₁ (fun _ _ _ => hpermit)
    fun x' p' hm => by
      cases hm with
      | parks _ => exact ⟨rfl, rfl, rfl⟩
      | reads hr =>
        cases hr with
        | waiting hw => cases hw
  exact .of_passes ⟨hleads, hplace₁, hwaiting⟩ (.of_looks hl
    (wins_of_interrupted (hf₁.of_looks hl) (hl.state.trans hstate₁) hl.place_self))

theorem wins_of_getStatus (hf : c.First u n h) (hstate : c.shared.state = 0)
    (hplace : c.place u = .waiting n (.getStatus h)) : c.Wins u n h := by
  by_cases hws : c.shared.memory.waitStatus h = SIGNAL
  · obtain ⟨c', hl⟩ := exists_looks (q := .waiting n (.park h)) hplace nofun fun x' p' hm => by
      cases hm with
      | reads hr =>
        cases hr with
        | waiting hw =>
          cases hw with
          | signalled _ => exact ⟨rfl, rfl, rfl⟩
          | unsignalled hne => exact absurd hws hne
    exact .of_looks hl (wins_of_park (hf.of_looks hl) (hl.state.trans hstate) hl.place_self)
  · obtain ⟨c', hl⟩ := exists_looks (q := .waiting n (.casStatus h (c.shared.memory.waitStatus h)))
      hplace nofun fun x' p' hm => by
        cases hm with
        | reads hr =>
          cases hr with
          | waiting hw =>
            cases hw with
            | signalled heq => exact absurd heq hws
            | unsignalled _ => exact ⟨rfl, rfl, rfl⟩
    exact .of_looks hl (wins_of_casStatus (hf.of_looks hl) (hl.state.trans hstate) hl.place_self)

/-- While the lock is free, the first thread can get it. -/
theorem exists_wins (hf : c.First u n h) (hstate : c.shared.state = 0) {w : Waiting}
    (hplace : c.place u = .waiting n w) : c.Wins u n h := by
  have hk := c.follows.inv.knows u
  rw [hplace] at hk
  have hh {m : Ref} (hm : c.links.prev n = some m) : m = h :=
    Option.some.inj (hm.symm.trans hf.prev)
  cases w with
  | setNext m => exact wins_of_setNext hf hstate hplace
  | loop => exact wins_of_loop hf hstate hplace
  | getPrev => exact wins_of_getPrev hf hstate hplace
  | getHead m =>
    obtain rfl := hh hk.2
    exact wins_of_getHead hf hstate hplace
  | tryAcquire m =>
    obtain rfl := hh hk.2.1
    exact wins_of_tryAcquire hstate hplace
  | getStatus m =>
    obtain rfl := hh hk.2
    exact wins_of_getStatus hf hstate hplace
  | casStatus m ws => exact wins_of_casStatus hf hstate hplace
  | park m =>
    obtain rfl := hh hk.2
    exact wins_of_park hf hstate hplace
  | interrupted => exact wins_of_interrupted hf hstate hplace

/-! ## The thread that has the lock -/

theorem holds_of_acquired (hplace : c.place r = .acquired) : ∃ c', c.Passes r .holding c' := by
  obtain ⟨c', hl⟩ := exists_looks (q := .holding) hplace nofun fun x' p' hm => by
    cases hm with
    | reads hr =>
      cases hr
      exact ⟨rfl, rfl, rfl⟩
  exact ⟨c', hl.passes⟩

theorem holds_of_setNext (hplace : c.place r = .promoting n m .setNext) :
    ∃ c', c.Passes r .holding c' := by
  obtain ⟨c₁, hp₁, -⟩ := exists_passes_of (q := .acquired) (fun _ => True) hplace nofun
    fun x' p' hm => by
      cases hm with
      | clearsNext => exact ⟨rfl, rfl, rfl, trivial⟩
      | reads hr => cases hr
  obtain ⟨c₂, hp₂⟩ := holds_of_acquired hp₁.place_self
  exact ⟨c₂, hp₁.trans hp₂⟩

theorem holds_of_setPrev (hplace : c.place r = .promoting n m .setPrev) :
    ∃ c', c.Passes r .holding c' := by
  obtain ⟨c₁, hp₁, -⟩ := exists_passes_of (q := .promoting n m .setNext) (fun _ => True) hplace
    nofun fun x' p' hm => by
      cases hm with
      | clearsPrev => exact ⟨rfl, rfl, rfl, trivial⟩
      | reads hr => cases hr
  obtain ⟨c₂, hp₂⟩ := holds_of_setNext hp₁.place_self
  exact ⟨c₂, hp₁.trans hp₂⟩

theorem holds_of_setThread (hplace : c.place r = .promoting n m .setThread) :
    ∃ c', c.Passes r .holding c' := by
  obtain ⟨c₁, hp₁, -⟩ := exists_passes_of (q := .promoting n m .setPrev) (fun _ => True) hplace
    nofun fun x' p' hm => by
      cases hm with
      | clearsThread => exact ⟨rfl, rfl, rfl, trivial⟩
      | reads hr => cases hr
  obtain ⟨c₂, hp₂⟩ := holds_of_setPrev hp₁.place_self
  exact ⟨c₂, hp₁.trans hp₂⟩

/-- The first thread leaves the queue, and has the lock. -/
theorem holds_of_setHead (hplace : c.place r = .promoting n m .setHead) :
    ∃ c', c.LeadsTo c' ∧ c'.place r = .holding ∧ c.waiting = c'.waiting ++ [(r, n)] := by
  obtain ⟨p', c₁, ht⟩ := c.exists_takes r fun _ _ h => by cases hplace.symm.trans h
  obtain ⟨hplace₁, hqueued, hpromoted⟩ : c₁.place r = .promoting n m .setThread ∧
      c₁.shared.queued = c.shared.queued ∧ c₁.shared.promoted = (r, n) :: c.shared.promoted := by
    have hm := ht.moves
    rw [hplace] at hm
    have hself := ht.place_self
    generalize c₁.shared = x' at hm ⊢
    cases hm with
    | promotes => exact ⟨hself, rfl, rfl⟩
    | reads hr => cases hr
  have hwaiting : c.waiting = c₁.waiting ++ [(r, n)] := by
    rw [queued_eq, queued_eq, hpromoted, List.append_cons] at hqueued
    exact (List.append_cancel_right hqueued).symm
  obtain ⟨c₂, hp⟩ := holds_of_setThread hplace₁
  exact ⟨c₂, ht.leads.trans hp.leads, hp.place_self, hp.waiting ▸ hwaiting⟩

theorem frees_of_tryRelease (hplace : c.place r = .tryRelease) :
    ∃ c', c.Passes r .getHead c' ∧ c'.shared.state = 0 :=
  exists_passes_of (fun x => x.state = 0) hplace nofun fun x' p' hm => by
    cases hm with
    | releases => exact ⟨rfl, rfl, rfl, rfl⟩
    | reads hr => cases hr

theorem frees_of_holding (hplace : c.place r = .holding) :
    ∃ c', c.Passes r .getHead c' ∧ c'.shared.state = 0 := by
  obtain ⟨c₁, hl⟩ := exists_looks (q := .tryRelease) hplace nofun fun x' p' hm => by
    cases hm with
    | reads hr =>
      cases hr
      exact ⟨rfl, rfl, rfl⟩
  obtain ⟨c₂, hp, hstate⟩ := frees_of_tryRelease hl.place_self
  exact ⟨c₂, hl.passes.trans hp, hstate⟩

/-! ## One thread after the other -/

/-- The thread can get the lock. -/
def Gets (c : Situation T) (t : T) : Prop := ∃ c', c.LeadsTo c' ∧ c'.place t = .holding

theorem Gets.of_leads (hl : c.LeadsTo c') (h : c'.Gets t) : c.Gets t := by
  obtain ⟨c'', hl', hplace⟩ := h
  exact ⟨c'', hl.trans hl', hplace⟩

/-- The thread that has the lock can return from `acquire`, unless it is in `release` already. Only
its own node leaves the queue. -/
theorem exists_holding (hr : (c.place r).Holds) (hne : c.place r ≠ .tryRelease) :
    ∃ c', c.LeadsTo c' ∧ c'.place r = .holding ∧ ∃ before, c.waiting = c'.waiting ++ before ∧
      ∀ t n, (t, n) ∈ before → t = r := by
  have hpasses : (∃ c', c.Passes r .holding c') → ∃ c', c.LeadsTo c' ∧ c'.place r = .holding ∧
      ∃ before, c.waiting = c'.waiting ++ before ∧ ∀ t n, (t, n) ∈ before → t = r := by
    rintro ⟨c', hp⟩
    exact ⟨c', hp.leads, hp.place_self, [], by rw [hp.waiting, List.append_nil], fun _ _ => nofun⟩
  cases hplace : c.place r with
  | promoting n m q =>
    cases q with
    | setHead =>
      obtain ⟨c', hleads, hholding, hwaiting⟩ := holds_of_setHead hplace
      exact ⟨c', hleads, hholding, _, hwaiting, fun t n h =>
        congrArg Prod.fst (List.mem_singleton.mp h)⟩
    | setThread => exact hpasses (holds_of_setThread hplace)
    | setPrev => exact hpasses (holds_of_setPrev hplace)
    | setNext => exact hpasses (holds_of_setNext hplace)
  | acquired => exact hpasses (holds_of_acquired hplace)
  | holding => exact ⟨c, Reaches.refl _, hplace, [], by rw [List.append_nil], fun _ _ => nofun⟩
  | tryRelease => exact absurd hplace hne
  | _ =>
    rw [hplace] at hr
    exact hr.elim

/-- As long as a thread is in the queue, it gets the lock next, or the lock can become free. -/
theorem gets_or_frees (hmem : (t, n) ∈ c.waiting) : c.Gets t ∨ ∃ c', c.LeadsTo c' ∧
    c'.shared.state = 0 ∧ (t, n) ∈ c'.waiting ∧ c'.waiting.length ≤ c.waiting.length := by
  by_cases hstate : c.shared.state = 0
  · exact Or.inr ⟨c, Reaches.refl _, hstate, hmem, Nat.le_refl _⟩
  obtain ⟨r, hr⟩ := c.held hstate
  by_cases hplace : c.place r = .tryRelease
  · obtain ⟨c', hp, hfree⟩ := frees_of_tryRelease hplace
    exact Or.inr ⟨c', hp.leads, hfree, hp.waiting ▸ hmem, Nat.le_of_eq (congrArg _ hp.waiting)⟩
  · obtain ⟨c₁, hleads, hholding, before, hwaiting, hbefore⟩ := exists_holding hr hplace
    rw [hwaiting] at hmem
    obtain hmem | hmem := List.mem_append.mp hmem
    · obtain ⟨c₂, hp, hfree⟩ := frees_of_holding hholding
      refine Or.inr ⟨c₂, hleads.trans hp.leads, hfree, hp.waiting ▸ hmem, ?_⟩
      rw [hp.waiting, hwaiting, List.length_append]
      omega
    · obtain rfl := hbefore t n hmem
      exact Or.inl ⟨c₁, hleads, hholding⟩

/-- While the lock is free, the first thread can get it, and leaves the others in the queue. -/
theorem exists_first_holding {before : List (T × Ref)} (hstate : c.shared.state = 0)
    (hwaiting : c.waiting = before ++ [(u, n)]) :
    ∃ c', c.LeadsTo c' ∧ c'.place u = .holding ∧ c'.waiting = before := by
  obtain ⟨v, m, h, w, hmem, hplace, hhead, hprev⟩ :=
    c.follows.exists_first hstate (by simp [hwaiting])
  have hf : c.First v m h := ⟨hmem, hhead, hprev⟩
  obtain ⟨last, hq⟩ := hf.exists_queue
  obtain ⟨before', hfirst⟩ := hq.first hmem hprev
  obtain ⟨rfl, hlast⟩ := List.append_inj' (hwaiting.symm.trans hfirst) rfl
  cases hlast
  obtain ⟨c₁, hp⟩ := exists_wins hf hstate hplace
  obtain ⟨c₂, hleads, hholding, hleft⟩ := holds_of_setHead hp.place_self
  rw [hp.waiting, hwaiting] at hleft
  exact ⟨c₂, hp.leads.trans hleads, hholding, (List.append_cancel_right hleft).symm⟩

/-- The induction is on the length of the queue: whenever the lock is free, its first thread gets
it. -/
theorem gets_of_mem (hmem : (t, n) ∈ c.waiting) : c.Gets t := by
  induction hk : c.waiting.length using Nat.strong_induction_on generalizing c with
  | _ k ih =>
    obtain hgets | ⟨c₁, hleads₁, hfree, hmem₁, hlength⟩ := gets_or_frees hmem
    · exact hgets
    obtain ⟨before, ⟨u, m⟩, hwaiting⟩ :=
      (List.eq_nil_or_concat' c₁.waiting).resolve_left (List.ne_nil_of_mem hmem₁)
    obtain ⟨c₂, hleads₂, hholding, hbefore⟩ := exists_first_holding hfree hwaiting
    refine .of_leads hleads₁ (.of_leads hleads₂ ?_)
    rw [hwaiting] at hmem₁
    obtain hmem₂ | hlast := List.mem_append.mp hmem₁
    · refine ih c₂.waiting.length ?_ (hbefore ▸ hmem₂) rfl
      have hshort : c₁.waiting.length = before.length + 1 := by rw [hwaiting, List.length_append]; rfl
      rw [hbefore]
      omega
    · cases List.mem_singleton.mp hlast
      exact ⟨c₂, Reaches.refl _, hholding⟩

end Situation

/-- Whatever the threads have done, a thread in the queue can still get the lock. -/
theorem holds_of_queued (turns : List (Turn T)) (t : T)
    (h : (run State.step (.start : State T) turns).Queued t) :
    ∃ more, (run State.step (.start : State T) (turns ++ more)).phase t = .holding := by
  obtain ⟨c, hc⟩ := Situation.exists_run turns
  rw [← hc] at h
  obtain ⟨n, hn⟩ := c.follows.queued_iff.mp h
  obtain ⟨c', ⟨more, hmore⟩, hplace⟩ := Situation.gets_of_mem hn
  have happend : run State.step (.start : State T) (turns ++ more) = c'.state := by
    rw [← hmore, hc]
    exact List.foldl_append
  have hphase := c'.follows.phase t
  rw [hplace] at hphase
  exact ⟨more, (congrArg (State.phase · t) happend).trans hphase⟩

/-- One thread has the lock, and another one has just appended its node behind the first head. -/
def contended : List (Turn Bool) :=
  List.replicate 2 ⟨false, 1, ⟨0, false, false, 0⟩⟩ ++ List.replicate 14 ⟨true, 1, ⟨0, false, false, 0⟩⟩

theorem holds_of_queued_contended :
    ∃ more, (run State.step (.start : State Bool) (contended ++ more)).phase true = .holding := by
  refine holds_of_queued contended true ⟨1, ?_, ?_⟩
  · decide
  · decide

end BigPlan.QueuedSynchronizer.Exclusive
