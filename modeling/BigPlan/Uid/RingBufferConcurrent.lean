import Mathlib.Data.List.Nodup
import BigPlan.Lib.Runs
import BigPlan.Uid.RingBuffer

/-!
# Concurrent takes

Any number of takes advance one atomic step at a time, in source order, between
complete puts. A take that finds the cursor at the tail keeps the old cursor as
its next one, but is rejected only if its own earlier read saw that cursor too.
The history records which uids were accepted, and whether a take moved the cursor.
-/
namespace BigPlan.Uid.RingBuffer

open Lib.Java Lib.Runs

/-- How far one call of `take` has come. -/
inductive Take where
  | start
  | readCursor (currentCursor : Int)
  | updated (currentCursor nextCursor : Int) (moved : Bool)
  | readTail (currentCursor nextCursor : Int) (moved : Bool)
  | notEmpty (nextCursor : Int) (moved : Bool)
  | canTake (nextCursor : Int)
  | readSlot (nextCursor : Int) (uid : JLong)
  | returned (nextCursor : Int) (uid : JLong)
  | thrown (e : UidError)
  deriving DecidableEq, Repr

/-- The next atomic step of a take. -/
def stepTake (r : RingBuffer) : Take → RingBuffer × Take
  | .start => (r, .readCursor r.cursor)
  | .readCursor c =>
    let moved := decide (r.cursor ≠ r.tail)
    let r := r.updateAndGet
    (r, .updated c r.cursor moved)
  | .updated c n moved =>
    if ¬ n ≥ c then (r, .thrown (.illegalArgument "Curosr can't move back"))
    else (r.triggerPadding r.tail n, .readTail c n moved)
  | .readTail c n moved =>
    if n = c then (r, .thrown r.exceptionRejectedTakeBuffer) else (r, .notEmpty n moved)
  | .notEmpty n _ =>
    if ¬ r.flags (r.calSlotIndex n) = CAN_TAKE_FLAG then
      (r, .thrown (.illegalArgument "Curosr not in can take status"))
    else (r, .canTake n)
  | .canTake n => (r, .readSlot n (r.slots (r.calSlotIndex n)))
  | .readSlot n uid => (r.setFlag (r.calSlotIndex n) CAN_PUT_FLAG, .returned n uid)
  | .returned n uid => (r, .returned n uid)
  | .thrown e => (r, .thrown e)

structure Shared where
  ring : RingBuffer
  takes : Nat → Take
  /-- The accepted uids; the index is the sequence number. -/
  published : List JLong

inductive Action where
  | put (uid : JLong)
  | take (i : Nat)
  deriving DecidableEq, Repr

def step (s : Shared) : Action → Shared
  | .put uid =>
    let (ring, accepted) := s.ring.put uid
    { s with ring, published := if accepted then s.published ++ [uid] else s.published }
  | .take i =>
    let (ring, take) := stepTake s.ring (s.takes i)
    { s with ring, takes := Function.update s.takes i take }

def shared (ring : RingBuffer) : Shared := { ring, takes := fun _ => .start, published := [] }

def putsOf (as : List Action) : List JLong :=
  as.filterMap fun
    | .put uid => some uid
    | .take _ => none

theorem run_steps (s : Shared) (i m : Nat) :
    ((run step s (List.replicate m (.take i))).ring,
      (run step s (List.replicate m (.take i))).takes i) =
        (fun p : RingBuffer × Take => stepTake p.1 p.2)^[m] (s.ring, s.takes i) := by
  induction m generalizing s with
  | zero => rfl
  | succ m ih =>
    rw [List.replicate_succ, run_cons, ih, Function.iterate_succ_apply]
    simp only [step, Function.update_self]

/-- Seven steps in a row are one call of `take`. -/
theorem run_take (s : Shared) (i : Nat) (hi : s.takes i = .start) :
    ((run step s (List.replicate 7 (.take i))).ring,
      (run step s (List.replicate 7 (.take i))).takes i) =
        (s.ring.take.1, match s.ring.take.2 with
          | .ok uid => .returned s.ring.take.1.cursor uid
          | .error e => .thrown e) := by
  rw [run_steps, hi]
  generalize s.ring = r
  have hmono : r.updateAndGet.cursor ≥ r.cursor := by
    unfold updateAndGet
    split
    · exact Int.le_refl _
    · exact Int.le_add_one (Int.le_refl _)
  have h1 : stepTake r .start = (r, .readCursor r.cursor) := rfl
  have h2 : stepTake r (.readCursor r.cursor) = (r.updateAndGet,
    .updated r.cursor r.updateAndGet.cursor (decide (r.cursor ≠ r.tail))) := rfl
  simp only [Function.iterate_succ_apply, Function.iterate_zero, id_eq, h1, h2, take]
  generalize r.updateAndGet = r' at hmono
  generalize decide (r.cursor ≠ r.tail) = moved
  have h3 : stepTake r' (.updated r.cursor r'.cursor moved) =
    (r'.triggerPadding r'.tail r'.cursor, .readTail r.cursor r'.cursor moved) :=
      if_neg (not_not.mpr hmono)
  rw [h3, if_neg (not_not.mpr hmono)]
  have hcursor := cursor_triggerPadding r' r'.tail r'.cursor
  generalize r'.triggerPadding r'.tail r'.cursor = p at hcursor
  by_cases hempty : r'.cursor = r.cursor
  · have h4 : stepTake p (.readTail r.cursor r'.cursor moved) =
      (p, .thrown p.exceptionRejectedTakeBuffer) := if_pos hempty
    have h5 (e : UidError) : stepTake p (.thrown e) = (p, .thrown e) := rfl
    simp only [h4, h5, if_pos hempty]
  · have h4 : stepTake p (.readTail r.cursor r'.cursor moved) = (p, .notEmpty r'.cursor moved) :=
      if_neg hempty
    simp only [h4, if_neg hempty]
    by_cases hflag : p.flags (p.calSlotIndex r'.cursor) = CAN_TAKE_FLAG
    · simp only [if_neg (not_not.mpr hflag), stepTake]
      rw [show (p.setFlag _ _).cursor = p.cursor from rfl, hcursor]
    · simp only [if_pos hflag, stepTake]

/-- The uid was accepted under this sequence number. -/
def Shared.Accepted (s : Shared) (n : Int) (uid : JLong) : Prop :=
  ∃ k : Nat, n = k ∧ s.published[k]? = some uid

/-- The accepted uid lies in its slot, ready to be taken. -/
def Shared.Stocked (s : Shared) (n : Int) (uid : JLong) : Prop :=
  s.Accepted n uid ∧ s.ring.slots (s.ring.calSlotIndex n) = uid ∧
    s.ring.flags (s.ring.calSlotIndex n) = CAN_TAKE_FLAG

/-- The take owns the uid with this sequence number: it moved the cursor there, or it
passed the flag test. From the read of the slot on it carries the uid itself. -/
def Take.Holds (n : Int) (uid : JLong) : Take → Prop
  | .updated _ m moved | .readTail _ m moved | .notEmpty m moved => moved = true ∧ m = n
  | .canTake m => m = n
  | .readSlot m u | .returned m u => m = n ∧ u = uid
  | .start | .readCursor _ | .thrown _ => False

/-- No uid is returned twice, and every accepted uid that the cursor has passed is
held or returned by exactly one take. -/
def Shared.TakenOnce (s : Shared) : Prop :=
  (∀ i j n m uid, s.takes i = .returned n uid → s.takes j = .returned m uid → i = j) ∧
    ∀ n uid, s.Accepted n uid → n ≤ s.ring.cursor → ∃! i, (s.takes i).Holds n uid

/-- A take that did not move the cursor, and yet was not rejected as empty, finds the
flag of its slot no longer set when it tests it. -/
def Guard (s : Shared) : Action → Prop
  | .put _ => True
  | .take i =>
    match s.takes i with
    | .notEmpty n false => s.ring.flags (s.ring.calSlotIndex n) ≠ CAN_TAKE_FLAG
    | _ => True

instance (s : Shared) : (a : Action) → Decidable (Guard s a)
  | .put _ => isTrue trivial
  | .take i => by
    unfold Guard
    dsimp only
    split <;> infer_instance

/-- What the position of a take says about the shared state. -/
def Take.Sound (s : Shared) : Take → Prop
  | .start | .thrown _ => True
  | .readCursor c => START_POINT ≤ c ∧ c ≤ s.ring.cursor
  | .updated c n moved | .readTail c n moved =>
    START_POINT ≤ c ∧ c ≤ n ∧ n ≤ s.ring.cursor ∧ (moved = true → c < n ∧ ∃ u, s.Stocked n u)
  | .notEmpty n moved => 0 ≤ n ∧ n ≤ s.ring.cursor ∧ (moved = true → ∃ u, s.Stocked n u)
  | .canTake n => 0 ≤ n ∧ n ≤ s.ring.cursor ∧ ∃ u, s.Stocked n u
  | .readSlot n u => n ≤ s.ring.cursor ∧ s.Stocked n u
  | .returned n u => n ≤ s.ring.cursor ∧ s.Accepted n u

structure Consistent (s : Shared) : Prop where
  cursor_ge : START_POINT ≤ s.ring.cursor
  cursor_le : s.ring.cursor ≤ s.ring.tail
  tail_eq : s.ring.tail + 1 = s.published.length
  stocked : ∀ n u, s.Accepted n u → s.ring.cursor < n → s.Stocked n u
  owned : ∀ n u, s.Accepted n u → n ≤ s.ring.cursor → ∃! i, (s.takes i).Holds n u
  sound : ∀ i, (s.takes i).Sound s

variable {s s' : Shared} {r : RingBuffer} {n m : Int} {u v : JLong} {t : Take} {as : List Action}

theorem Shared.Accepted.unique (h : s.Accepted n u) (h' : s.Accepted n v) : u = v := by
  obtain ⟨k, hk, hu⟩ := h
  obtain ⟨k', hk', hv⟩ := h'
  obtain rfl : k = k' := by omega
  exact Option.some.inj (hu.symm.trans hv)

/-- A uid that was put once has one sequence number. -/
theorem Shared.Accepted.inj (hn : s.published.Nodup) (h : s.Accepted n u) (h' : s.Accepted m u) :
    n = m := by
  obtain ⟨k, hk, hu⟩ := h
  obtain ⟨k', hk', hv⟩ := h'
  have := (List.getElem?_inj (List.getElem?_eq_some_iff.mp hu).1 hn).mp (hu.trans hv.symm)
  omega

theorem Shared.Accepted.bounds (hc : Consistent s) (h : s.Accepted n u) :
    0 ≤ n ∧ n ≤ s.ring.tail := by
  obtain ⟨k, hk, hu⟩ := h
  have := (List.getElem?_eq_some_iff.mp hu).1
  have := hc.tail_eq
  omega

theorem Consistent.exists_accepted (hc : Consistent s) (h0 : 0 ≤ n) (hn : n ≤ s.ring.tail) :
    ∃ u, s.Accepted n u := by
  have := hc.tail_eq
  exact ⟨s.published.get ⟨n.toNat, by omega⟩, n.toNat, by omega, List.getElem?_eq_getElem _⟩

/-- Two stocked uids never share a slot, however far apart they were put. -/
theorem Shared.Stocked.separated (hn : s.published.Nodup) (h : s.Stocked n u)
    (h' : s.Stocked m v) (hne : n ≠ m) : s.ring.calSlotIndex n ≠ s.ring.calSlotIndex m := by
  intro he
  have huv : u = v := by rw [← h.2.1, he, h'.2.1]
  exact hne (h.1.inj hn (huv ▸ h'.1))

theorem Take.Sound.holds_le (h : t.Sound s) (hh : t.Holds n u) : n ≤ s.ring.cursor := by
  cases t with
  | start | readCursor | thrown => exact hh.elim
  | updated c m moved | readTail c m moved => exact hh.2 ▸ h.2.2.1
  | notEmpty m moved => exact hh.2 ▸ h.2.1
  | canTake m => exact hh ▸ h.2.1
  | readSlot m v | returned m v => exact hh.1 ▸ h.1

/-- A take stays sound while the cursor moves on and what it holds stays stocked. -/
theorem Take.Sound.mono (h : t.Sound s) (hc : s.ring.cursor ≤ s'.ring.cursor)
    (ha : ∀ n u, s.Accepted n u → s'.Accepted n u)
    (hs : ∀ n u, t.Holds n u → s.Stocked n u → s'.Stocked n u) : t.Sound s' := by
  cases t with
  | start | thrown => trivial
  | readCursor c => exact ⟨h.1, Int.le_trans h.2 hc⟩
  | updated c n moved | readTail c n moved =>
    obtain ⟨h1, h2, h3, h4⟩ := h
    refine ⟨h1, h2, Int.le_trans h3 hc, fun hm => ⟨(h4 hm).1, ?_⟩⟩
    obtain ⟨u, hu⟩ := (h4 hm).2
    exact ⟨u, hs n u ⟨hm, rfl⟩ hu⟩
  | notEmpty n moved =>
    obtain ⟨h1, h2, h3⟩ := h
    refine ⟨h1, Int.le_trans h2 hc, fun hm => ?_⟩
    obtain ⟨u, hu⟩ := h3 hm
    exact ⟨u, hs n u ⟨hm, rfl⟩ hu⟩
  | canTake n =>
    obtain ⟨h1, h2, u, hu⟩ := h
    exact ⟨h1, Int.le_trans h2 hc, u, hs n u rfl hu⟩
  | readSlot n u => exact ⟨Int.le_trans h.1 hc, hs n u ⟨rfl, rfl⟩ h.2⟩
  | returned n u => exact ⟨Int.le_trans h.1 hc, ha n u h.2⟩

theorem holds_update {takes : Nat → Take} {i : Nat} (h : t.Holds n u ↔ (takes i).Holds n u)
    (j : Nat) : (Function.update takes i t j).Holds n u ↔ (takes j).Holds n u := by
  by_cases hj : j = i
  · subst hj
    rw [Function.update_self]
    exact h
  · rw [Function.update_of_ne hj]

theorem sound_update {takes : Nat → Take} {i : Nat} (h : t.Sound s)
    (hs : ∀ j, j ≠ i → (takes j).Sound s) (j : Nat) : (Function.update takes i t j).Sound s := by
  by_cases hj : j = i
  · subst hj
    rwa [Function.update_self]
  · rw [Function.update_of_ne hj]
    exact hs j hj

/-- A step that leaves slots, flags, cursor and tail alone, and holdings as they were. -/
theorem Consistent.move (hc : Consistent s) {i : Nat} (paddings : Nat) (ht : t.Sound s)
    (hh : ∀ n u, s.Accepted n u → n ≤ s.ring.cursor → (t.Holds n u ↔ (s.takes i).Holds n u)) :
    Consistent { s with
      ring := { s.ring with asyncPaddings := paddings }
      takes := Function.update s.takes i t } := by
  refine ⟨hc.cursor_ge, hc.cursor_le, hc.tail_eq, hc.stocked, fun n u ha hn => ?_, ?_⟩
  · simp only [holds_update (hh n u ha hn)]
    exact hc.owned n u ha hn
  · exact sound_update (ht.mono (Int.le_refl _) (fun _ _ h => h) fun _ _ _ h => h)
      fun j _ => (hc.sound j).mono (Int.le_refl _) (fun _ _ h => h) fun _ _ _ h => h

/-- Moving the cursor hands its new sequence number to the take that moved it. -/
theorem Consistent.advance (hc : Consistent s) {i : Nat} {c : Int} (hi : s.takes i = .readCursor c)
    (hne : s.ring.cursor ≠ s.ring.tail) :
    Consistent { s with
      ring := { s.ring with cursor := s.ring.cursor + 1 }
      takes := Function.update s.takes i (.updated c (s.ring.cursor + 1) true) } := by
  have hge := hc.cursor_ge
  have hle := hc.cursor_le
  have hci : START_POINT ≤ c ∧ c ≤ s.ring.cursor := by
    have := hc.sound i
    rwa [hi] at this
  have hnew : ∃ u, s.Stocked (s.ring.cursor + 1) u := by
    obtain ⟨u, hu⟩ := hc.exists_accepted (n := s.ring.cursor + 1)
      (by unfold START_POINT at hge; omega) (by omega)
    exact ⟨u, hc.stocked _ u hu (by omega)⟩
  refine ⟨Int.le_add_one hge, show s.ring.cursor + 1 ≤ s.ring.tail by omega, hc.tail_eq, ?_, ?_, ?_⟩
  · intro n u ha hn
    change s.ring.cursor + 1 < n at hn
    exact hc.stocked n u ha (by omega)
  · intro n u ha hn
    change n ≤ s.ring.cursor + 1 at hn
    rcases Int.lt_or_le s.ring.cursor n with hlast | hold
    · obtain rfl : n = s.ring.cursor + 1 := by omega
      refine ⟨i, ?_, fun j hj => ?_⟩
      · simp only [Function.update_self]
        exact ⟨rfl, rfl⟩
      · by_contra hji
        simp only [Function.update_of_ne hji] at hj
        have := (hc.sound j).holds_le hj
        omega
    · have hiff : (Take.updated c (s.ring.cursor + 1) true).Holds n u ↔ (s.takes i).Holds n u := by
        rw [hi]
        exact ⟨fun h => by have := h.2; omega, fun h => h.elim⟩
      simp only [holds_update hiff]
      exact hc.owned n u ha hold
  · refine sound_update ⟨hci.1, by omega, Int.le_refl _, fun _ => ⟨by omega, hnew⟩⟩ fun j _ => ?_
    exact (hc.sound j).mono (Int.le_add_one (Int.le_refl _)) (fun _ _ h => h) fun _ _ _ h => h

/-- Freeing a slot leaves what the other takes hold in place. -/
theorem Consistent.free (hc : Consistent s) (hn : s.published.Nodup) {i : Nat}
    (hi : s.takes i = .readSlot n u) :
    Consistent { s with
      ring := s.ring.setFlag (s.ring.calSlotIndex n) CAN_PUT_FLAG
      takes := Function.update s.takes i (.returned n u) } := by
  have hsound := hc.sound i
  rw [hi] at hsound
  obtain ⟨hle, hst⟩ := hsound
  have hkeep : ∀ m v, m ≠ n → s.Stocked m v →
      Shared.Stocked { s with
        ring := s.ring.setFlag (s.ring.calSlotIndex n) CAN_PUT_FLAG
        takes := Function.update s.takes i (.returned n u) } m v := by
    intro m v hmn hm
    refine ⟨hm.1, hm.2.1, ?_⟩
    change Function.update s.ring.flags _ _ (s.ring.calSlotIndex m) = CAN_TAKE_FLAG
    rw [Function.update_of_ne (hm.separated hn hst hmn)]
    exact hm.2.2
  have howner : ∀ j, (s.takes j).Holds n u → j = i := by
    intro j hj
    refine (hc.owned n u hst.1 hle).unique hj ?_
    rw [hi]
    exact ⟨rfl, rfl⟩
  refine ⟨hc.cursor_ge, hc.cursor_le, hc.tail_eq, ?_, ?_, ?_⟩
  · intro m v ha hm
    change s.ring.cursor < m at hm
    exact hkeep m v (by omega) (hc.stocked m v ha hm)
  · intro m v ha hm
    have hiff : (Take.returned n u).Holds m v ↔ (s.takes i).Holds m v := by
      rw [hi]
      exact Iff.rfl
    simp only [holds_update hiff]
    exact hc.owned m v ha hm
  · refine sound_update ⟨hle, hst.1⟩ fun j hji => ?_
    refine (hc.sound j).mono (Int.le_refl _) (fun _ _ h => h) fun m v hh hm => hkeep m v ?_ hm
    rintro rfl
    exact hji (howner j (hm.1.unique hst.1 ▸ hh))

/-- A put fills a slot that no stocked uid uses, since its flag was free. -/
theorem Consistent.fill (hc : Consistent s)
    (hflag : s.ring.flags (s.ring.calSlotIndex (s.ring.tail + 1)) = CAN_PUT_FLAG) (uid : JLong) :
    Consistent { s with
      ring := { s.ring with
        slots := Function.update s.ring.slots (s.ring.calSlotIndex (s.ring.tail + 1)) uid
        flags := Function.update s.ring.flags (s.ring.calSlotIndex (s.ring.tail + 1)) CAN_TAKE_FLAG
        tail := s.ring.tail + 1 }
      published := s.published ++ [uid] } := by
  generalize hs' : ({ s with
      ring := { s.ring with
        slots := Function.update s.ring.slots (s.ring.calSlotIndex (s.ring.tail + 1)) uid
        flags := Function.update s.ring.flags (s.ring.calSlotIndex (s.ring.tail + 1)) CAN_TAKE_FLAG
        tail := s.ring.tail + 1 }
      published := s.published ++ [uid] } : Shared) = s'
  have htail := hc.tail_eq
  have hold : ∀ n u, s.Accepted n u → s'.Accepted n u := by
    rintro n u ⟨k, hk, hu⟩
    subst hs'
    exact ⟨k, hk, (List.getElem?_append_left (List.getElem?_eq_some_iff.mp hu).1).trans hu⟩
  have hnew : ∀ n u, s'.Accepted n u → s.Accepted n u ∨ n = s.ring.tail + 1 ∧ u = uid := by
    rintro n u ⟨k, hk, hu⟩
    subst hs'
    rcases Nat.lt_or_ge k s.published.length with hlt | hge
    · exact Or.inl ⟨k, hk, (List.getElem?_append_left hlt).symm.trans hu⟩
    · have hlast := (List.getElem?_eq_some_iff.mp hu).1
      rw [List.length_append, List.length_singleton] at hlast
      obtain rfl : k = s.published.length := by omega
      refine Or.inr ⟨by omega, ?_⟩
      rw [List.getElem?_append_right le_rfl, Nat.sub_self] at hu
      exact (Option.some.inj hu).symm
  have hkeep : ∀ n u, s.Stocked n u → s'.Stocked n u := by
    intro n u hst
    have hne : s.ring.calSlotIndex n ≠ s.ring.calSlotIndex (s.ring.tail + 1) := by
      intro he
      have := hst.2.2
      rw [he, hflag] at this
      exact absurd this (by decide)
    refine ⟨hold n u hst.1, ?_⟩
    subst hs'
    change Function.update s.ring.slots _ uid (s.ring.calSlotIndex n) = u ∧
      Function.update s.ring.flags _ _ (s.ring.calSlotIndex n) = CAN_TAKE_FLAG
    rw [Function.update_of_ne hne, Function.update_of_ne hne]
    exact hst.2
  have hcursor : s'.ring.cursor = s.ring.cursor := by rw [← hs']
  have htakes : s'.takes = s.takes := by rw [← hs']
  have htail' : s'.ring.tail = s.ring.tail + 1 := by rw [← hs']
  have hle := hc.cursor_le
  refine ⟨hcursor ▸ hc.cursor_ge, by omega, ?_, ?_, ?_, ?_⟩
  · rw [← hs']
    simp only [List.length_append, List.length_singleton]
    omega
  · intro n u ha hn
    rcases hnew n u ha with hs | ⟨rfl, rfl⟩
    · exact hkeep n u (hc.stocked n u hs (hcursor ▸ hn))
    · refine ⟨ha, ?_⟩
      subst hs'
      exact ⟨Function.update_self _ _ _, Function.update_self _ _ _⟩
  · intro n u ha hn
    rcases hnew n u ha with hs | ⟨rfl, _⟩
    · rw [htakes]
      exact hc.owned n u hs (hcursor ▸ hn)
    · omega
  · intro i
    rw [htakes]
    exact (hc.sound i).mono (Int.le_of_eq hcursor.symm) hold fun n u _ => hkeep n u

/-- The shared state is consistent and the uids to come are new ones. -/
structure Invariant (as : List Action) (s : Shared) : Prop extends Consistent s where
  fresh : (s.published ++ putsOf as).Nodup

theorem Invariant.nodup (h : Invariant as s) : s.published.Nodup :=
  (List.nodup_append.mp h.fresh).1

/-- One step of a take, by its position. -/
theorem Consistent.step_take (hc : Consistent s) (hn : s.published.Nodup) (i : Nat)
    (hg : Guard s (.take i)) : Consistent (step s (.take i)) := by
  have hi := hc.sound i
  cases ht : s.takes i with
  | start =>
    simp only [step, ht, stepTake]
    exact hc.move s.ring.asyncPaddings ⟨hc.cursor_ge, Int.le_refl _⟩ fun n u _ _ => by rw [ht]; rfl
  | readCursor c =>
    simp only [step, ht, stepTake, updateAndGet]
    by_cases hend : s.ring.cursor = s.ring.tail
    · rw [ht] at hi
      rw [if_pos hend, decide_eq_false (not_not.mpr hend)]
      refine hc.move s.ring.asyncPaddings ⟨hi.1, hi.2, Int.le_refl _, by simp⟩ fun n u _ _ => ?_
      rw [ht]
      exact ⟨fun h => absurd h.1 (by decide), fun h => h.elim⟩
    · rw [if_neg hend, decide_eq_true hend]
      exact hc.advance ht hend
  | updated c n moved =>
    rw [ht] at hi
    simp only [step, ht, stepTake, if_neg (not_not.mpr hi.2.1), triggerPadding]
    split
    · exact hc.move _ hi fun n u _ _ => by rw [ht]; rfl
    · exact hc.move s.ring.asyncPaddings hi fun n u _ _ => by rw [ht]; rfl
  | readTail c n moved =>
    rw [ht] at hi
    obtain ⟨hge, hcn, hle, hst⟩ := hi
    simp only [step, ht, stepTake]
    split
    · -- a rejected take never moved the cursor, so it held nothing
      rename_i hempty
      refine hc.move s.ring.asyncPaddings trivial fun m u _ _ => ?_
      rw [ht]
      exact ⟨fun h => h.elim, fun h => by have := (hst h.1).1; omega⟩
    · unfold START_POINT at hge
      refine hc.move s.ring.asyncPaddings ⟨by omega, hle, fun hm => (hst hm).2⟩ fun m u _ _ => ?_
      rw [ht]
      rfl
  | notEmpty n moved =>
    rw [ht] at hi
    obtain ⟨h0, hle, hst⟩ := hi
    cases moved with
    | false =>
      simp only [Guard, ht] at hg
      simp only [step, ht, stepTake, if_pos hg]
      refine hc.move s.ring.asyncPaddings trivial fun m u _ _ => ?_
      rw [ht]
      exact ⟨fun h => h.elim, fun h => absurd h.1 (by decide)⟩
    | true =>
      obtain ⟨u, hu⟩ := hst rfl
      simp only [step, ht, stepTake, if_neg (not_not.mpr hu.2.2)]
      refine hc.move s.ring.asyncPaddings ⟨h0, hle, u, hu⟩ fun m u _ _ => ?_
      rw [ht]
      exact ⟨fun h => ⟨rfl, h⟩, fun h => h.2⟩
  | canTake n =>
    rw [ht] at hi
    obtain ⟨_, hle, u, hu⟩ := hi
    simp only [step, ht, stepTake]
    rw [hu.2.1]
    refine hc.move s.ring.asyncPaddings ⟨hle, hu⟩ fun m v ha _ => ?_
    rw [ht]
    exact ⟨fun h => h.1, fun h => ⟨h, hu.1.unique (h ▸ ha)⟩⟩
  | readSlot n u =>
    simp only [step, ht, stepTake]
    exact hc.free hn ht
  | returned n u =>
    rw [ht] at hi
    simp only [step, ht, stepTake]
    exact hc.move s.ring.asyncPaddings hi fun m v _ _ => by rw [ht]
  | thrown e =>
    simp only [step, ht, stepTake]
    exact hc.move s.ring.asyncPaddings trivial fun m v _ _ => by rw [ht]

theorem Invariant.step {a : Action} (h : Invariant (a :: as) s) (hg : Guard s a) :
    Invariant as (step s a) := by
  cases a with
  | put uid =>
    have hfresh : (s.published ++ uid :: putsOf as).Nodup := h.fresh
    rcases put_cases s.ring uid with hput | ⟨hflag, hput⟩
    · refine ⟨?_, ?_⟩
      · simp only [RingBuffer.step, hput]
        exact h.toConsistent
      · simp only [RingBuffer.step, hput]
        exact hfresh.sublist (List.Sublist.append_left (List.sublist_cons_self _ _) _)
    · refine ⟨?_, ?_⟩
      · simp only [RingBuffer.step, hput, if_true]
        exact h.fill hflag uid
      · simp only [RingBuffer.step, hput, if_true, List.append_assoc]
        exact hfresh
  | take i => exact ⟨h.step_take h.nodup i hg, h.fresh⟩

theorem Invariant.takenOnce (h : Invariant as s) : s.TakenOnce := by
  refine ⟨fun i j n m u hi hj => ?_, h.owned⟩
  have hsi := h.sound i
  have hsj := h.sound j
  rw [hi] at hsi
  rw [hj] at hsj
  obtain rfl : n = m := hsi.2.inj h.nodup hsj.2
  refine (h.owned n u hsi.2 hsi.1).unique ?_ ?_
  · rw [hi]
    exact ⟨rfl, rfl⟩
  · rw [hj]
    exact ⟨rfl, rfl⟩

/-- A take that the guard forbids takes a uid that another take already owns. -/
theorem Invariant.not_takenOnce {a : Action} (h : Invariant (a :: as) s) (hg : ¬ Guard s a) :
    ¬ (RingBuffer.step s a).TakenOnce := by
  cases a with
  | put uid => exact absurd trivial hg
  | take i =>
    obtain ⟨n, hi, hflag⟩ : ∃ n, s.takes i = .notEmpty n false ∧
        s.ring.flags (s.ring.calSlotIndex n) = CAN_TAKE_FLAG := by
      unfold Guard at hg
      dsimp only at hg
      split at hg
      · rename_i n hi
        exact ⟨n, hi, not_not.mp hg⟩
      · exact absurd trivial hg
    have hs := h.sound i
    rw [hi] at hs
    obtain ⟨u, hu⟩ := h.exists_accepted hs.1 (Int.le_trans hs.2.1 h.cursor_le)
    obtain ⟨j, hj, _⟩ := h.owned n u hu hs.2.1
    have hji : j ≠ i := by
      rintro rfl
      rw [hi] at hj
      exact absurd hj.1 (by decide)
    simp only [RingBuffer.step, hi, stepTake, if_neg (not_not.mpr hflag)]
    intro ⟨_, hown⟩
    have hone := hown n u hu hs.2.1
    have hholds : ((Function.update s.takes i (.canTake n)) i).Holds n u := by
      rw [Function.update_self]
      rfl
    have hholds' : ((Function.update s.takes i (.canTake n)) j).Holds n u := by
      rw [Function.update_of_ne hji]
      exact hj
    exact hji (hone.unique hholds' hholds)

theorem invariant_shared {bufferSize paddingFactor : JInt}
    (hr : RingBuffer.new bufferSize paddingFactor = .ok r) (has : (putsOf as).Nodup) :
    Invariant as (shared r) := by
  obtain ⟨_, _, ht, hc, _⟩ := new_eq hr
  have hnone : ∀ n u, ¬ (shared r).Accepted n u := by
    rintro n u ⟨k, _, hu⟩
    cases hu
  refine ⟨⟨Int.le_of_eq hc.symm, Int.le_of_eq (hc.trans ht.symm), ?_, ?_, ?_, fun _ => trivial⟩, has⟩
  · show r.tail + 1 = 0
    rw [ht]
    rfl
  · exact fun n u ha => absurd ha (hnone n u)
  · exact fun n u ha => absurd ha (hnone n u)

/-- In every interleaving of puts of distinct uids with any number of takes, each uid
is taken once as long as no take that found the cursor at the tail meets a flag that
is still set, and at the first such take it stops being so. -/
theorem takenOnce_iff {bufferSize paddingFactor : JInt}
    (hr : RingBuffer.new bufferSize paddingFactor = .ok r) (has : (putsOf as).Nodup) :
    Throughout step Shared.TakenOnce (shared r) as ↔ Along step Guard (shared r) as :=
  throughout_iff_along Invariant (fun _ _ => Invariant.takenOnce) (fun _ _ _ => Invariant.step)
    (fun _ _ _ => Invariant.not_takenOnce) (invariant_shared hr has)

def twoSlots : RingBuffer where
  bufferSize := 2
  indexMask := 1
  slots := fun _ => 0
  flags := fun _ => CAN_PUT_FLAG
  tail := START_POINT
  cursor := START_POINT
  paddingThreshold := 1
  asyncPaddings := 0

theorem twoSlots_eq : RingBuffer.new 2 50 = .ok twoSlots := rfl

/-- Two takes of the only uid, one step each in turn. -/
def racing : List Action :=
  .put 7 :: (List.replicate 7 [Action.take 0, Action.take 1]).flatten

/-- Two overlapping takes, each of which moves the cursor. -/
def handingOver : List Action :=
  [.take 1, .put 7, .put 8, .take 0, .take 0, .take 1] ++ List.replicate 5 (.take 0) ++
    List.replicate 5 (.take 1)

theorem takenOnce_handingOver : Throughout step Shared.TakenOnce (shared twoSlots) handingOver :=
  (takenOnce_iff twoSlots_eq (by decide)).mpr (by decide +kernel)

/-- Both takes read the cursor before either moves it, and both return the uid. -/
theorem racing_takes_twice :
    ¬ ∀ (bufferSize paddingFactor : JInt) (r : RingBuffer) (as : List Action),
      2 ≤ bufferSize.toInt → RingBuffer.new bufferSize paddingFactor = .ok r →
      (putsOf as).Nodup → Throughout step Shared.TakenOnce (shared r) as := by
  intro h
  have hrun := (h 2 50 twoSlots racing (by decide) twoSlots_eq (by decide)).last
  have h0 : (run step (shared twoSlots) racing).takes 0 = .returned 0 7 := by decide +kernel
  have h1 : (run step (shared twoSlots) racing).takes 1 = .returned 0 7 := by decide +kernel
  exact absurd (hrun.1 0 1 0 0 7 h0 h1) (by decide)

end BigPlan.Uid.RingBuffer
