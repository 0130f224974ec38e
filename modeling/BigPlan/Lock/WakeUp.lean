import BigPlan.Lock.Exclusion

/-!
# No lost wake-up

A thread that is parked behind the head while the lock is free has a permit, or a thread that has
released the lock is on the way to unpark it.
-/
namespace BigPlan.QueuedSynchronizer.Exclusive

open Lib Lib.Chain Program Node Lib.Runs

variable {T : Type}

/-- The search behind the head `h` ends at the first node `n`. -/
def Waking.Wakes (waiting : List (T × Ref)) (n h : Ref) : Waking → Prop
  | getStatus | casStatus _ | getNext | getTail => True
  | getNextStatus s | getThread s => s = n
  | loop c s => (∃ m ∈ nodesOf waiting, c = some m) ∨ c = some h ∧ s = some n
  | getCursorStatus c _ => c ∈ nodesOf waiting
  | getCursorPrev c ws _ => c ∈ nodesOf waiting ∧ ws ≤ 0

/-- A thread at the place is going to unpark `u`, whose node `n` is the one behind `h`. -/
def Place.Wakes (waiting : List (T × Ref)) (u : T) (n h : Ref) : Place T → Prop
  | .waking m w => m = h ∧ w.Wakes waiting n h
  | .unpark thread => thread = some u
  | _ => False

/-- A thread at the place has released the lock, and is going to read the status of the head. -/
def Place.Finds (h : Ref) : Place T → Prop
  | .getHead => True
  | .getHeadStatus m => m = h
  | _ => False

def Woken (x : Shared T) (place : T → Place T) (waiting : List (T × Ref)) (u : T) (n h : Ref) :
    Prop :=
  x.permit u = true ∨ ∃ r, (place r).Wakes waiting u n h

structure Awake (x : Shared T) (place : T → Place T) (waiting : List (T × Ref)) : Prop where
  /-- Who parks has signalled that it needs to be unparked. -/
  signalled : ∀ u n p, place u = .waiting n (.park p) →
    x.memory.waitStatus p = SIGNAL ∨ Woken x place waiting u n p
  /-- The signal of the head is seen once the lock is free. -/
  freed : ∀ u n h, x.state = 0 → x.links.head = some h → x.memory.waitStatus h = SIGNAL →
    (place u = .waiting n (.park h) ∨ place u = .waiting n (.getStatus h)) →
    Woken x place waiting u n h ∨ ∃ r, (place r).Finds h

theorem awake_start : Awake (.start : Shared T) (fun _ => .outside) [] where
  signalled u n p h := by cases h
  freed u n p _ _ _ h := by rcases h with h | h <;> cases h

variable {x x' : Shared T} {place : T → Place T} {p p' : Place T}
  {waiting waiting' : List (T × Ref)} {l l' : Links T} {t u : T} {n m h : Ref}

/-! ## The search for the first node -/

theorem Waking.Wakes.mono {w : Waking} (hsub : nodesOf waiting ⊆ nodesOf waiting')
    (hw : w.Wakes waiting n h) : w.Wakes waiting' n h := by
  cases w with
  | loop c s =>
    obtain ⟨m, hm, hc⟩ | hend := hw
    · exact Or.inl ⟨m, hsub hm, hc⟩
    · exact Or.inr hend
  | getCursorStatus c s => exact hsub hw
  | getCursorPrev c ws s => exact ⟨hsub hw.1, hw.2⟩
  | getStatus => trivial
  | casStatus ws => trivial
  | getNext => trivial
  | getTail => trivial
  | getNextStatus s => exact hw
  | getThread s => exact hw

theorem Place.Wakes.mono (hsub : nodesOf waiting ⊆ nodesOf waiting') (hw : p.Wakes waiting u n h) :
    p.Wakes waiting' u n h := by
  cases p with
  | waking m w => exact ⟨hw.1, hw.2.mono hsub⟩
  | unpark thread => exact hw
  | _ => exact hw.elim

theorem Waking.Reads.wakes {w w' : Waking} {last : List Ref} (hr : w.Reads x h w')
    (hcalm : Calm x) (hq : Queue x.links waiting h last) (hn : n ∈ nodesOf waiting)
    (hprev : x.links.prev n = some h) (hw : w.Wakes waiting n h) : w'.Wakes waiting n h := by
  cases hr with
  | signalled hws => trivial
  | unsignalled hws => trivial
  | statusFails hws => trivial
  | readsNext hnext =>
    obtain ⟨hmem, hback⟩ := hq.next h (by simp) _ hnext
    exact hq.eq_of_prev hmem hn hback hprev
  | readsNoNext hnext => trivial
  | readsNextStatus => exact hw
  | readsTail =>
    -- the queue is not empty, and so the tail is set
    refine Or.inl ?_
    obtain htail | ⟨-, hnil⟩ := hq.tail
    · cases hnodes : nodesOf waiting with
      | nil =>
        rw [hnodes] at hn
        cases hn
      | cons m ms => exact ⟨m, List.mem_cons_self, htail.trans (by rw [hnodes]; rfl)⟩
    · subst hnil
      cases hn
  | goesOn hne =>
    obtain ⟨m, hm, hc⟩ | ⟨hc, -⟩ := hw
    · cases hc
      exact hm
    · exact absurd (Option.some.inj hc) hne
  | finds hend =>
    obtain ⟨m, hm, rfl⟩ | ⟨-, hs⟩ := hw
    · obtain hc | hc := hend
      · cases hc
      · cases hc
        exact absurd hm hq.head_notMem
    · exact Option.some.inj hs
  | readsCursorStatus => exact ⟨hw, Int.not_lt.mp (hcalm.not_pos _)⟩
  | readsCursorPrev =>
    obtain ⟨hc, hws⟩ := hw
    obtain ⟨q, hmem, hq'⟩ := hq.exists_prev hc
    obtain hmem | hlast := List.mem_append.mp hmem
    · exact Or.inl ⟨q, hmem, hq'⟩
    · -- the cursor is at the first node
      obtain rfl := List.mem_singleton.mp hlast
      obtain rfl := hq.eq_of_prev hc hn hq' hprev
      exact Or.inr ⟨hq', if_pos hws⟩

/-- A node that has left the queue is the head, if a node of the queue leads to it. -/
theorem Linked.queue_of_gone (hl : Linked l waiting) (hn : n ∈ nodesOf waiting)
    (hprev : l.prev n = some h) (hgone : Gone l waiting h) :
    l.head = some h ∧ ∃ last, Queue l waiting h last := by
  obtain ⟨m, last, hhead, hq⟩ := hl.exists_queue hn
  obtain ⟨q, hmem, hq'⟩ := hq.exists_prev hn
  obtain rfl : q = h := Option.some.inj (hq'.symm.trans hprev)
  obtain hmem | hlast := List.mem_append.mp hmem
  · exact absurd hmem hgone.left
  · obtain rfl := List.mem_singleton.mp hlast
    exact ⟨hhead, last, hq⟩

theorem Queue.prev_last {last : List Ref} (hq : Queue l (waiting ++ [(u, n)]) h last) :
    l.prev n = some h := by
  have hleads := hq.leads
  simp only [nodesOf, List.map_append, List.map_cons, List.map_nil, List.append_assoc] at hleads
  exact next_of_leads hleads

theorem Linked.suffix (hl : Linked l waiting) (hl' : Linked l' waiting')
    (hqueued : l.queued <:+ l'.queued) (hpromoted : l'.promoted = l.promoted) :
    waiting <:+ waiting' := by
  rw [hl.queued, hl'.queued, hpromoted] at hqueued
  obtain ⟨before, hbefore⟩ := hqueued
  rw [← List.append_assoc] at hbefore
  exact ⟨before, List.append_cancel_right hbefore⟩

theorem Place.Wakes.gone (hw : p.Wakes waiting u n h) (hk : Knows l waiting t p) :
    (∃ w, p = .waking h w ∧ w.Wakes waiting n h) ∧ Gone l waiting h ∨ p = .unpark (some u) := by
  cases p with
  | waking m w =>
    obtain ⟨rfl, hw⟩ := hw
    exact Or.inl ⟨⟨w, rfl, hw⟩, hk⟩
  | unpark thread => exact Or.inr (congrArg _ hw)
  | _ => exact hw.elim

/-- Where a thread that parks, or is about to, is known to be in the queue. -/
theorem Inv.parks (hi : Inv x place waiting)
    (hplace : place u = .waiting n (.park h) ∨ place u = .waiting n (.getStatus h)) :
    (u, n) ∈ waiting ∧ x.links.prev n = some h ∧ ∃ w, place u = .waiting n w := by
  have hk := hi.knows u
  obtain hplace | hplace := hplace <;> rw [hplace] at hk
  · exact ⟨hk.1, hk.2, _, hplace⟩
  · exact ⟨hk.1, hk.2, _, hplace⟩

/-! ## What a move does to a thread that is woken -/

section Moves

variable [DecidableEq T]

theorem Moves.queued (hm : Moves t x p x' p') : x.queued <:+ x'.queued := by
  cases hm with
  | appends h => exact List.suffix_cons _ _
  | _ => exact List.suffix_refl _

theorem Moves.promoted (hm : Moves t x p x' p') :
    x'.promoted = x.promoted ∨ ∃ n q, p = .promoting n q .setHead := by
  cases hm with
  | promotes => exact Or.inr ⟨_, _, rfl⟩
  | _ => exact Or.inl rfl

theorem Moves.permit (hm : Moves t x p x' p') (hut : u ≠ t) (h : x.permit u = true) :
    x'.permit u = true := by
  cases hm with
  | parks hp => exact (Function.update_of_ne hut ..).trans h
  | unparks =>
    rename_i v
    by_cases huv : u = v
    · rw [huv]
      exact Function.update_self ..
    · exact (Function.update_of_ne huv ..).trans h
  | _ => exact h

theorem Moves.wakes {w : Waking} {last : List Ref} (hm : Moves t x (.waking h w) x' p')
    (hi : Inv x place waiting) (hq : Queue x.links waiting h last) (hu : (u, n) ∈ waiting)
    (hprev : x.links.prev n = some h) (hw : w.Wakes waiting n h) : p'.Wakes waiting u n h := by
  have hn : n ∈ nodesOf waiting := mem_nodesOf.mpr ⟨u, hu⟩
  cases hm with
  | resets => exact ⟨rfl, trivial⟩
  | reads hr =>
    cases hr with
    | waking hr => exact ⟨rfl, hr.wakes hi.calm hq hn hprev hw⟩
    | readsThread => exact hw ▸ hi.linked.threads u n hu
    | findsNone hend =>
      obtain ⟨m, hmem, rfl⟩ | ⟨-, hs⟩ := hw
      · obtain hc | hc := hend
        · cases hc
        · cases hc
          exact absurd hmem hq.head_notMem
      · cases hs

theorem Moves.permit_of_unpark (hm : Moves t x (.unpark (some u)) x' p') : x'.permit u = true := by
  cases hm with
  | unparks => exact Function.update_self ..
  | reads hr => cases hr

/-- As long as a thread waits behind the head, no thread leaves the queue. -/
theorem Inv.nodes_subset {w : Waiting} (hi : Inv x place waiting)
    (hm : Moves t x (place t) x' p')
    (hs : Stepped x.links x'.links waiting waiting' t (place t) p')
    (hplace : place u = .waiting n w) (hu : (u, n) ∈ waiting) (hprev : x.links.prev n = some h)
    (hhead : x.links.head = some h) : nodesOf waiting ⊆ nodesOf waiting' := by
  obtain hpromoted | ⟨m, q, hpromoting⟩ := hm.promoted
  · exact List.map_subset _ (hi.linked.suffix hs.linked hm.queued hpromoted).subset
  · have hk := hi.knows t
    rw [hpromoting] at hk
    obtain ⟨hmem, hprev', hhead'⟩ := hk
    obtain rfl : q = h := Option.some.inj (hhead'.symm.trans hhead)
    obtain ⟨rfl, -⟩ := hi.linked.eq_of_prev hmem hu hprev' hprev
    rw [hpromoting] at hplace
    cases hplace

theorem Inv.woken {w : Waiting} (hi : Inv x place waiting) (hm : Moves t x (place t) x' p')
    (hs : Stepped x.links x'.links waiting waiting' t (place t) p')
    (hplace : place u = .waiting n w) (hprev : x.links.prev n = some h)
    (hpermit : x.permit u = true → x'.permit u = true) (hw : Woken x place waiting u n h) :
    Woken x' (Function.update place t p') waiting' u n h := by
  have hu : (u, n) ∈ waiting := by
    have hk := hi.knows u
    rw [hplace] at hk
    exact hk.1
  obtain hw | ⟨r, hr⟩ := hw
  · exact Or.inl (hpermit hw)
  · obtain ⟨⟨w', hwaking, hw'⟩, hgone⟩ | hunpark := hr.gone (hi.knows r)
    · obtain ⟨hhead, last, hq⟩ :=
        hi.linked.queue_of_gone (mem_nodesOf.mpr ⟨u, hu⟩) hprev hgone
      have hsub := hi.nodes_subset hm hs hplace hu hprev hhead
      refine Or.inr ⟨r, ?_⟩
      by_cases hrt : r = t
      · subst hrt
        rw [hwaking] at hm
        rw [Function.update_self]
        exact (hm.wakes hi hq hu hprev hw').mono hsub
      · rw [Function.update_of_ne hrt]
        exact hr.mono hsub
    · by_cases hrt : r = t
      · subst hrt
        rw [hunpark] at hm
        exact Or.inl hm.permit_of_unpark
      · refine Or.inr ⟨r, ?_⟩
        rw [Function.update_of_ne hrt, hunpark]
        rfl

/-! ## What a move does to the signals -/

theorem Moves.of_park {q : Ref} (hm : Moves t x p x' (.waiting n (.park q))) :
    p = .waiting n (.getStatus q) ∧ x' = x ∧ x.memory.waitStatus q = SIGNAL := by
  cases hm with
  | reads hr =>
    cases hr with
    | waiting hw =>
      cases hw with
      | signalled hws => exact ⟨rfl, rfl, hws⟩

theorem Moves.of_getStatus {q : Ref} (hm : Moves t x p x' (.waiting n (.getStatus q))) :
    x' = x ∧ (x.links.head ≠ some q ∨ x.state ≠ 0) := by
  cases hm with
  | reads hr =>
    cases hr with
    | waiting hw =>
      cases hw with
      | notAtHead hhead => exact ⟨rfl, Or.inl hhead⟩
      | fails hstate => exact ⟨rfl, Or.inr hstate⟩

/-- A signal is taken back only by a thread that goes on to wake the next one. -/
theorem Moves.signal {q : Ref} (hm : Moves t x p x' p') (hq : q < x.memory.fresh)
    (hws : x.memory.waitStatus q = SIGNAL) :
    x'.memory.waitStatus q = SIGNAL ∨ p' = .waking q .getNext := by
  cases hm with
  | creates => exact Or.inl (by simpa [Nat.ne_of_lt hq] using hws)
  | createsHead => exact Or.inl (by simpa [Nat.ne_of_lt hq] using hws)
  | signals => exact Or.inl (by simp [hws])
  | resets =>
    rename_i h
    by_cases hqh : q = h
    · exact Or.inr (by rw [hqh])
    · exact Or.inl (by simpa [hqh] using hws)
  | _ => exact Or.inl hws

/-- A signal is set by the thread behind the node. -/
theorem Moves.signalled {q : Ref} (hm : Moves t x p x' p')
    (hws : x'.memory.waitStatus q = SIGNAL) :
    x.memory.waitStatus q = SIGNAL ∨ ∃ n ws, p = .waiting n (.casStatus q ws) := by
  have hnew : (0 : ℤ) ≠ SIGNAL := by decide
  cases hm with
  | creates =>
    by_cases hq : q = x.memory.fresh
    · exact absurd (by simpa [hq] using hws) hnew
    · exact Or.inl (by simpa [hq] using hws)
  | createsHead =>
    by_cases hq : q = x.memory.fresh
    · exact absurd (by simpa [hq] using hws) hnew
    · exact Or.inl (by simpa [hq] using hws)
  | signals =>
    rename_i node pred
    by_cases hq : q = pred
    · exact Or.inr ⟨node, _, by rw [hq]⟩
    · exact Or.inl (by simpa [hq] using hws)
  | resets =>
    rename_i h
    by_cases hq : q = h
    · exact absurd (by simpa [hq] using hws) hnew
    · exact Or.inl (by simpa [hq] using hws)
  | _ => exact Or.inl hws

theorem Moves.head (hm : Moves t x p x' p') (hp' : ¬ p'.Holds) :
    x'.links.head = x.links.head ∨ x.links.head = none := by
  cases hm with
  | setsHead hhead => exact Or.inr hhead
  | promotes => exact absurd trivial hp'
  | _ => exact Or.inl rfl

theorem Moves.freed (hm : Moves t x p x' p') (hstate : x'.state = 0) :
    x.state = 0 ∨ p' = .getHead := by
  cases hm with
  | releases => exact Or.inr rfl
  | acquires h => exact Or.inl h
  | wins h => exact Or.inl h
  | _ => exact Or.inl hstate

theorem Moves.finds (hm : Moves t x p x' p') (hp : p.Finds h) (hhead : x.links.head = some h)
    (hws : x.memory.waitStatus h = SIGNAL) : p'.Finds h ∨ p' = .waking h .getStatus := by
  cases hm with
  | reads hr =>
    cases hr with
    | readsHead hhead' => exact Or.inl (Option.some.inj (hhead'.symm.trans hhead))
    | readsNoHead hnone => cases hnone.symm.trans hhead
    | signalled hne => exact Or.inr (by rw [show _ = h from hp])
    | unsignalled hzero =>
      rw [show _ = h from hp, hws] at hzero
      exact absurd hzero (by decide)
    | _ => exact hp.elim
  | _ => exact hp.elim

theorem Awake.signalled_moves (ha : Awake x place waiting) (hi : Inv x place waiting)
    (hm : Moves t x (place t) x' p')
    (hs : Stepped x.links x'.links waiting waiting' t (place t) p') {q : Ref}
    (hplace : Function.update place t p' u = .waiting n (.park q)) :
    x'.memory.waitStatus q = SIGNAL ∨ Woken x' (Function.update place t p') waiting' u n q := by
  by_cases hut : u = t
  · subst hut
    rw [Function.update_self] at hplace
    subst hplace
    obtain ⟨-, rfl, hws⟩ := hm.of_park
    exact Or.inl hws
  · rw [Function.update_of_ne hut] at hplace
    obtain ⟨hu, hprev, -⟩ := hi.parks (Or.inl hplace)
    obtain hws | hwoken := ha.signalled u n q hplace
    · have hq := (hi.linked.known_prev (mem_nodesOf.mpr ⟨u, hu⟩) hprev).lt
      obtain hws' | hwaking := hm.signal hq hws
      · exact Or.inl hws'
      · refine Or.inr (Or.inr ⟨t, ?_⟩)
        rw [Function.update_self, hwaking]
        exact ⟨rfl, trivial⟩
    · exact Or.inr (hi.woken hm hs hplace hprev (hm.permit hut) hwoken)

/-- The thread that finds the signal of the head goes on to wake the thread behind it. -/
theorem Moves.woken_or_finds {r : T} (hm : Moves t x (place t) x' p') (hhead : x.links.head = some h)
    (hws : x.memory.waitStatus h = SIGNAL) (hr : (place r).Finds h) :
    Woken x' (Function.update place t p') waiting' u n h ∨
      ∃ r, (Function.update place t p' r).Finds h := by
  by_cases hrt : r = t
  · subst hrt
    obtain hfinds | hwaking := hm.finds hr hhead hws
    · refine Or.inr ⟨r, ?_⟩
      rw [Function.update_self]
      exact hfinds
    · refine Or.inl (Or.inr ⟨r, ?_⟩)
      rw [Function.update_self, hwaking]
      exact ⟨rfl, trivial⟩
  · refine Or.inr ⟨r, ?_⟩
    rw [Function.update_of_ne hrt]
    exact hr

theorem Awake.freed_moves (ha : Awake x place waiting) (hi : Inv x place waiting)
    (hm : Moves t x (place t) x' p')
    (hs : Stepped x.links x'.links waiting waiting' t (place t) p')
    (hstate : x'.state = 0) (hhead : x'.links.head = some h)
    (hws : x'.memory.waitStatus h = SIGNAL)
    (hplace : Function.update place t p' u = .waiting n (.park h) ∨
      Function.update place t p' u = .waiting n (.getStatus h)) :
    Woken x' (Function.update place t p') waiting' u n h ∨
      ∃ r, (Function.update place t p' r).Finds h := by
  by_cases hut : u = t
  · subst hut
    simp only [Function.update_self] at hplace
    obtain rfl | rfl := hplace
    · obtain ⟨hplace, rfl, -⟩ := hm.of_park
      obtain ⟨-, hprev, -⟩ := hi.parks (Or.inr hplace)
      obtain hwoken | ⟨r, hr⟩ := ha.freed u n h hstate hhead hws (Or.inr hplace)
      · exact Or.inl (hi.woken hm hs hplace hprev (fun h => h) hwoken)
      · exact hm.woken_or_finds hhead hws hr
    · obtain ⟨rfl, hne | hne⟩ := hm.of_getStatus
      · exact absurd hhead hne
      · exact absurd hstate hne
  · rw [Function.update_of_ne hut] at hplace
    obtain ⟨hu, hprev, w, hw⟩ := hi.parks hplace
    have hn := mem_nodesOf.mpr ⟨u, hu⟩
    have hfree : ¬ p'.Holds := by
      have hfree := hi.free_moves hm hstate t
      rwa [Function.update_self] at hfree
    -- neither the head nor its status has been written
    have hhead' : x.links.head = some h := by
      obtain hsame | hnone := hm.head hfree
      · exact hsame.symm.trans hhead
      · obtain ⟨m, last, hsome, -⟩ := hi.linked.exists_queue hn
        rw [hnone] at hsome
        cases hsome
    have hws' : x.memory.waitStatus h = SIGNAL := by
      obtain hws' | ⟨m, ws, hcas⟩ := hm.signalled hws
      · exact hws'
      · have hk := hi.knows t
        rw [hcas] at hk
        exact absurd (hi.linked.eq_of_prev hu hk.1 hprev hk.2).1 hut
    obtain hstate' | hreleases := hm.freed hstate
    · obtain hwoken | ⟨r, hr⟩ := ha.freed u n h hstate' hhead' hws' hplace
      · exact Or.inl (hi.woken hm hs hw hprev (hm.permit hut) hwoken)
      · exact hm.woken_or_finds hhead' hws' hr
    · refine Or.inr ⟨t, ?_⟩
      rw [Function.update_self, hreleases]
      trivial

theorem Awake.moves (ha : Awake x place waiting) (hi : Inv x place waiting)
    (hm : Moves t x (place t) x' p')
    (hs : Stepped x.links x'.links waiting waiting' t (place t) p') :
    Awake x' (Function.update place t p') waiting' where
  signalled _ _ _ := ha.signalled_moves hi hm hs
  freed _ _ _ := ha.freed_moves hi hm hs

end Moves

/-! ## Every run -/

/-- The threads are at these places, where the invariants hold. -/
structure Follows (s : State T) (place : T → Place T) (arg : T → ℤ) (waiting : List (T × Ref)) :
    Prop where
  phase : ∀ t, s.phase t = (place t).phase t (arg t)
  inv : Inv s.shared place waiting
  awake : Awake s.shared place waiting

variable {s : State T} {arg : T → ℤ}

theorem follows_start : Follows (.start : State T) (fun _ => .outside) (fun _ => 0) [] :=
  ⟨fun _ => rfl, inv_start, awake_start⟩

theorem Follows.step [DecidableEq T] (hf : Follows s place arg waiting) (turn : Turn T) :
    ∃ place arg waiting, Follows (s.step turn) place arg waiting := by
  obtain ⟨t, a, input⟩ := turn
  have hprev : ∀ n w, place t = .waiting n w → s.shared.memory.field (.prev n) ≠ none := by
    intro n w hplace hnone
    have hk := hf.inv.knows t
    rw [hplace] at hk
    obtain ⟨h, last, -, hq⟩ := hf.inv.linked.exists_queue (mem_nodesOf.mpr ⟨t, hk.1⟩)
    obtain ⟨p, -, hp⟩ := hq.exists_prev (mem_nodesOf.mpr ⟨t, hk.1⟩)
    cases hnone.symm.trans hp
  have hsteps := steps_of_phase hf.inv.calm hprev (hf.phase t) a input
  generalize s.step ⟨t, a, input⟩ = s' at hsteps
  cases hsteps with
  | waits => exact ⟨place, arg, waiting, hf⟩
  | @moves x' p' arg' hm =>
    obtain ⟨waiting', hs⟩ := hf.inv.stepped hm
    refine ⟨Function.update place t p', Function.update arg t arg', waiting', fun u => ?_,
      hf.inv.moves hm hs, hf.awake.moves hf.inv hm hs⟩
    by_cases hut : u = t
    · simp only [hut, Function.update_self]
    · simp only [Function.update_of_ne hut]
      exact hf.phase u

theorem Place.holds_of_phase {a : ℤ} (h : p.phase t a = .holding) : p.Holds := by
  cases p with
  | holding => trivial
  | _ => cases h

/-- A call of `release` has not started only if its next operation is `tryRelease`. -/
theorem Place.holds_of_release {a b : ℤ} (h : p.phase t a = .releasing (release b)) :
    p.Holds := by
  cases p with
  | tryRelease => trivial
  | waking m w => cases w <;> cases h
  | _ => cases h

theorem Place.park_of_phase {w : Waiting} {a : ℤ} {next : Unit → Method T Unit}
    (h : (Place.waiting n w).phase t a = .acquiring (.perform .park next)) :
    ∃ q, w = .park q := by
  cases w with
  | park q => exact ⟨q, rfl⟩
  | _ => cases h

namespace Follows

variable (hf : Follows s place arg waiting)
include hf

theorem holds (h : s.Holds t) : (place t).Holds := by
  obtain h | ⟨a, h⟩ := h
  · exact Place.holds_of_phase ((hf.phase t).symm.trans h)
  · exact Place.holds_of_release ((hf.phase t).symm.trans h)

theorem chained (htail : s.shared.memory.field .tail ≠ none) : ∃ nodes,
    Leads (fun n => s.shared.memory.field (.prev n)) (s.shared.memory.field .tail) nodes none ∧
      nodes.Nodup ∧ ∃ h ∈ nodes, s.shared.memory.field .head = some h := by
  cases hhead : s.shared.links.head with
  | none => exact absurd (hf.inv.linked.headless hhead).1 htail
  | some h =>
    obtain ⟨last, hq⟩ := hf.inv.linked.queue h hhead
    obtain htail' | hnone := hq.tail
    · have hleads := hq.leads
      rw [← htail'] at hleads
      exact ⟨_, hleads, hleads.nodup, h, by simp, hhead⟩
    · exact absurd hnone.1 htail

theorem queued_iff : s.Queued t ↔ ∃ n, (t, n) ∈ waiting := by
  have hqueued : s.shared.queued = waiting ++ s.shared.promoted := hf.inv.linked.queued
  constructor
  · rintro ⟨n, hmem, hnot⟩
    rw [hqueued] at hmem
    exact ⟨n, (List.mem_append.mp hmem).resolve_right hnot⟩
  · rintro ⟨n, hmem⟩
    have hnodup : s.shared.queued.Nodup := List.Nodup.of_map _ hf.inv.linked.nodup
    rw [hqueued] at hnodup
    refine ⟨n, ?_, List.disjoint_of_nodup_append hnodup hmem⟩
    rw [hqueued]
    exact List.mem_append_left _ hmem

/-- While the lock is free, the thread with the first node waits behind the head. -/
theorem exists_first (hstate : s.shared.state = 0) (hw : waiting ≠ []) :
    ∃ u n h w, (u, n) ∈ waiting ∧ place u = .waiting n w ∧ s.shared.links.head = some h ∧
      s.shared.links.prev n = some h := by
  obtain ⟨before, ⟨u, n⟩, hlast⟩ := (List.eq_nil_or_concat' waiting).resolve_left hw
  have hu : (u, n) ∈ waiting := by simp [hlast]
  obtain ⟨h, last, hhead, hq⟩ := hf.inv.linked.exists_queue (mem_nodesOf.mpr ⟨u, hu⟩)
  have hplace : ∃ w, place u = .waiting n w := by
    have hwaits := hf.inv.waits u n hu
    have hfree := hf.inv.free hstate u
    cases hp : place u with
    | waiting m w =>
      rw [hp] at hwaits
      exact ⟨w, congrArg (Place.waiting · w) hwaits⟩
    | promoting m p q => exact absurd (by rw [hp]; trivial) hfree
    | _ =>
      rw [hp] at hwaits
      exact hwaits.elim
  obtain ⟨w, hplace⟩ := hplace
  exact ⟨u, n, h, w, hu, hplace, hhead, (hlast ▸ hq).prev_last⟩

theorem releases_of_wakes {r : T} (h : (place r).Wakes waiting u n m) : s.Releases r := by
  have hphase := hf.phase r
  cases hp : place r with
  | waking m w =>
    rw [hp] at hphase
    exact ⟨_, hphase⟩
  | unpark thread =>
    rw [hp] at hphase
    exact ⟨_, hphase⟩
  | _ =>
    rw [hp] at h
    exact h.elim

theorem releases_of_finds {r : T} (h : (place r).Finds m) : s.Releases r := by
  have hphase := hf.phase r
  cases hp : place r with
  | getHead =>
    rw [hp] at hphase
    exact ⟨_, hphase⟩
  | getHeadStatus h =>
    rw [hp] at hphase
    exact ⟨_, hphase⟩
  | _ =>
    rw [hp] at h
    exact h.elim

theorem not_lost (hstate : s.shared.state = 0) (hqueued : ∃ t, s.Queued t) :
    (∃ t, s.Queued t ∧ (¬ s.Parked t ∨ s.shared.permit t = true)) ∨ ∃ r, s.Releases r := by
  obtain ⟨t, ht⟩ := hqueued
  obtain ⟨n, hn⟩ := hf.queued_iff.mp ht
  obtain ⟨u, n, h, w, hu, hplace, hhead, hprev⟩ := hf.exists_first hstate (List.ne_nil_of_mem hn)
  have hqueued : s.Queued u := hf.queued_iff.mpr ⟨n, hu⟩
  by_cases hparked : s.Parked u
  · obtain ⟨next, hparked⟩ := hparked
    rw [hf.phase u, hplace] at hparked
    obtain ⟨q, rfl⟩ := Place.park_of_phase hparked
    have hk := hf.inv.knows u
    rw [hplace] at hk
    obtain rfl : q = h := Option.some.inj (hk.2.symm.trans hprev)
    have hwoken : Woken s.shared place waiting u n q ∨ ∃ r, (place r).Finds q := by
      obtain hws | hwoken := hf.awake.signalled u n q hplace
      · exact hf.awake.freed u n q hstate hhead hws (Or.inl hplace)
      · exact Or.inl hwoken
    obtain (hpermit | ⟨r, hr⟩) | ⟨r, hr⟩ := hwoken
    · exact Or.inl ⟨u, hqueued, Or.inr hpermit⟩
    · exact Or.inr ⟨r, hf.releases_of_wakes hr⟩
    · exact Or.inr ⟨r, hf.releases_of_finds hr⟩
  · exact Or.inl ⟨u, hqueued, Or.inl hparked⟩

theorem sound : s.Sound where
  exclusive t u ht hu := hf.inv.unique t u (hf.holds ht) (hf.holds hu)
  chained := hf.chained
  ordered := ⟨waiting, hf.inv.linked.queued.symm⟩
  awake := hf.not_lost

end Follows

theorem follows_run [DecidableEq T] (turns : List (Turn T)) :
    ∃ place arg waiting, Follows (run State.step .start turns) place arg waiting := by
  refine invariant_run (P := fun s : State T => ∃ place arg waiting, Follows s place arg waiting)
    ?_ ⟨_, _, _, follows_start⟩ turns
  rintro s turn ⟨place, arg, waiting, hf⟩
  exact hf.step turn

/-- Whatever the threads do, and in whatever order their steps are taken, the lock does what it
is for. -/
theorem sound_run [DecidableEq T] (turns : List (Turn T)) :
    (run State.step (.start : State T) turns).Sound := by
  obtain ⟨place, arg, waiting, hf⟩ := follows_run turns
  exact hf.sound

end BigPlan.QueuedSynchronizer.Exclusive
