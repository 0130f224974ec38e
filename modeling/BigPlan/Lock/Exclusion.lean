import BigPlan.Lock.WaitQueue

/-!
# At most one thread

The invariant of the lock. While the state is 0 no thread has the lock, and at most one has it
otherwise; the queue is linked; every thread knows what it has to know at its place.
-/
namespace BigPlan.QueuedSynchronizer.Exclusive

open Lib Lib.Chain Program Node

variable {T : Type}

structure Inv (x : Shared T) (place : T → Place T) (waiting : List (T × Ref)) : Prop where
  calm : Calm x
  free : x.state = 0 → ∀ t, ¬ (place t).Holds
  unique : ∀ t u, (place t).Holds → (place u).Holds → t = u
  starts : ∀ t u, (place t).Starts → (place u).Starts → t = u
  waits : ∀ t n, (t, n) ∈ waiting → (place t).Waits n
  linked : Linked x.links waiting
  knows : ∀ t, Knows x.links waiting t (place t)

theorem inv_start : Inv (.start : Shared T) (fun _ => .outside) [] where
  calm := ⟨fun _ => Or.inl rfl, fun _ => rfl⟩
  free _ _ h := h
  unique _ _ h := h.elim
  starts _ _ h := h.elim
  waits _ _ h := by cases h
  linked := {
    fresh := fun _ _ => ⟨rfl, rfl⟩
    queued := rfl
    nodup := List.nodup_nil
    allocated := fun _ h => by cases h
    threads := fun _ _ h => by cases h
    headless := fun _ => ⟨rfl, rfl⟩
    queue := fun _ h => by cases h }
  knows _ := trivial

variable {x x' : Shared T} {place : T → Place T} {p p' : Place T} {waiting : List (T × Ref)}
  {t u : T}

theorem Place.Reads.holds (h : p.Reads x p') : p'.Holds ↔ p.Holds := by
  cases h <;> exact Iff.rfl

theorem Place.Reads.starts (h : p.Reads x p') (hs : p'.Starts) : p.Starts := by
  cases h with
  | adding ha =>
    cases ha with
    | readsHead => trivial
    | readsTail h => exact hs
    | readsNoTail h => exact hs
    | again => exact hs
    | enqReadsTail h => exact hs
    | enqReadsNoTail h => exact hs
    | headFails h => exact hs
    | tailFails h => exact hs
  | _ => exact hs

/-- A thread that starts the queue knows that it has a head. -/
theorem Knows.head_ne_none {l : Links T} (h : Knows l waiting t p) (hs : p.Starts) :
    l.head ≠ none := by
  cases p with
  | adding n a =>
    cases a with
    | getHead => exact h.2.1
    | setTail v =>
      obtain ⟨-, hv, hhead, -⟩ := h
      exact hhead ▸ hv
    | _ => exact hs.elim
  | _ => exact hs.elim

theorem Calm.newNode (h : Calm x) (thread : Option T) (mode : Option Ref) :
    Calm { x with memory := x.memory.newNode thread 0 mode } where
  statuses n := by
    have hold := h.statuses n
    by_cases hn : n = x.memory.fresh
    · exact Or.inl (by simp [hn])
    · simpa [hn] using hold
  flags := h.flags

theorem Calm.setWaitStatus (h : Calm x) (n : Ref) {ws : ℤ} (hws : ws = 0 ∨ ws = SIGNAL) :
    Calm { x with memory := x.memory.setWaitStatus n ws } where
  statuses m := by
    have hold := h.statuses m
    by_cases hm : m = n
    · simpa [hm] using hws
    · simpa [hm] using hold
  flags := h.flags

/-- What another thread relies on is kept by a move. -/
theorem Inv.rely {waiting' : List (T × Ref)} (hi : Inv x place waiting)
    (hs : Stepped x.links x'.links waiting waiting' t (place t) p') (hut : u ≠ t) :
    Rely x.links x'.links waiting waiting' u (place u) :=
  hs.rely u hut (place u) (fun hu ht => hut (hi.starts u t hu ht))
    fun hu ht => hut (hi.unique u t hu ht)

variable [DecidableEq T]

theorem Moves.calm (hm : Moves t x p x' p') (h : Calm x) : Calm x' := by
  cases hm with
  | creates => exact h.newNode _ _
  | createsHead => exact h.newNode _ _
  | signals => exact h.setWaitStatus _ (Or.inr rfl)
  | resets => exact h.setWaitStatus _ (Or.inl rfl)
  | _ => exact ⟨h.statuses, h.flags⟩

/-- The lock is acquired and released with the state. -/
theorem Moves.holds (hm : Moves t x p x' p') : (p'.Holds ↔ p.Holds) ∧ x'.state = x.state ∨
    x.state = 0 ∧ x'.state ≠ 0 ∨ p.Holds ∧ ¬ p'.Holds := by
  cases hm with
  | reads h => exact Or.inl ⟨h.holds, rfl⟩
  | acquires h => exact Or.inr (Or.inl ⟨h, Int.one_ne_zero⟩)
  | wins h => exact Or.inr (Or.inl ⟨h, Int.one_ne_zero⟩)
  | releases => exact Or.inr (Or.inr ⟨trivial, fun h => h⟩)
  | _ => exact Or.inl ⟨Iff.rfl, rfl⟩

theorem Moves.starts (hm : Moves t x p x' p') (hs : p'.Starts) :
    p.Starts ∨ x.links.head = none := by
  cases hm with
  | reads h => exact Or.inl (h.starts hs)
  | setsHead hhead => exact Or.inr hhead
  | _ => exact hs.elim

/-- What holds of the thread after its move, and of the others as before. -/
theorem forall_update {P : T → Place T → Prop} (ht : P t p') (hu : ∀ u ≠ t, P u (place u)) (u : T) :
    P u (Function.update place t p' u) := by
  by_cases h : u = t
  · rw [h, Function.update_self]
    exact ht
  · rw [Function.update_of_ne h]
    exact hu u h

theorem Inv.free_moves (hi : Inv x place waiting) (hm : Moves t x (place t) x' p')
    (hstate : x'.state = 0) : ∀ u, ¬ (Function.update place t p' u).Holds := by
  obtain ⟨hholds, hsame⟩ | ⟨-, hne⟩ | ⟨hp, hp'⟩ := hm.holds
  · have hfree := hi.free (hsame ▸ hstate)
    exact forall_update (P := fun _ q => ¬ q.Holds) (hholds.not.mpr (hfree t)) fun u _ => hfree u
  · exact absurd hstate hne
  · exact forall_update (P := fun _ q => ¬ q.Holds) hp' fun u hut hu => hut (hi.unique u t hu hp)

/-- One thread at most is at a place of a kind, if a thread comes to one only while no other thread
is at one. -/
theorem unique_update {P : Place T → Prop} (h : ∀ u v, P (place u) → P (place v) → u = v)
    (hothers : P p' → ∀ u ≠ t, ¬ P (place u)) :
    ∀ u v, P (Function.update place t p' u) → P (Function.update place t p' v) → u = v := by
  refine fun u => forall_update (P := fun v q => _ → P q → u = v) ?_ ?_
  · intro hu hp'
    by_contra hut
    rw [Function.update_of_ne hut] at hu
    exact hothers hp' u hut hu
  · intro v hvt hu hv
    by_cases hut : u = t
    · rw [hut, Function.update_self] at hu
      exact absurd hv (hothers hu v hvt)
    · rw [Function.update_of_ne hut] at hu
      exact h u v hu hv

theorem Inv.unique_moves (hi : Inv x place waiting) (hm : Moves t x (place t) x' p') :
    ∀ u v, (Function.update place t p' u).Holds → (Function.update place t p' v).Holds →
      u = v := by
  refine unique_update hi.unique fun hp' u hut hu => ?_
  obtain ⟨hholds, -⟩ | ⟨hstate, -⟩ | ⟨-, hnot⟩ := hm.holds
  · exact hut (hi.unique u t hu (hholds.mp hp'))
  · exact hi.free hstate u hu
  · exact hnot hp'

theorem Inv.starts_moves (hi : Inv x place waiting) (hm : Moves t x (place t) x' p') :
    ∀ u v, (Function.update place t p' u).Starts → (Function.update place t p' v).Starts →
      u = v := by
  refine unique_update hi.starts fun hp' u hut hu => ?_
  obtain hp | hhead := hm.starts hp'
  · exact hut (hi.starts u t hu hp)
  · exact (hi.knows u).head_ne_none hu hhead

theorem Inv.stepped (hi : Inv x place waiting) (hm : Moves t x (place t) x' p') :
    ∃ waiting', Stepped x.links x'.links waiting waiting' t (place t) p' :=
  hm.stepped hi.linked (hi.knows t) (hi.waits t)

theorem Inv.moves {waiting' : List (T × Ref)} (hi : Inv x place waiting)
    (hm : Moves t x (place t) x' p')
    (hs : Stepped x.links x'.links waiting waiting' t (place t) p') :
    Inv x' (Function.update place t p') waiting' where
  calm := hm.calm hi.calm
  free := hi.free_moves hm
  unique := hi.unique_moves hm
  starts := hi.starts_moves hm
  waits := forall_update (P := fun u q => ∀ n, (u, n) ∈ waiting' → q.Waits n) hs.waits
    fun u hut n hn => hi.waits u n (hs.others u hut n hn)
  linked := hs.linked
  knows := forall_update (P := fun u q => Knows x'.links waiting' u q) hs.knows
    fun u hut => (hi.knows u).mono (hi.rely hs hut)

end BigPlan.QueuedSynchronizer.Exclusive
