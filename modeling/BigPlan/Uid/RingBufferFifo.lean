import BigPlan.Lib.Runs
import BigPlan.Uid.RingBuffer

/-!
# The ring buffer as a bounded queue

A first-in first-out queue that holds `size` uids until the first successful take and one
fewer afterwards. Complete calls of `put` and `take` answer as the queue does, in every run
from a fresh buffer.
-/
namespace BigPlan.Uid

open Lib.Java Lib.Runs

/-- The abstract queue. -/
structure Fifo where
  size : ℕ
  /-- Some take has succeeded. -/
  taken : Bool
  uids : List JLong
  deriving DecidableEq, Repr

inductive BufferCall where
  | put (uid : JLong)
  | take
  deriving DecidableEq, Repr

/-- `none` is a take that throws. -/
inductive Answer where
  | put (accepted : Bool)
  | take (uid : Option JLong)
  deriving DecidableEq, Repr

namespace Fifo

def empty (size : ℕ) : Fifo := { size, taken := false, uids := [] }

def capacity (q : Fifo) : ℕ := if q.taken then q.size - 1 else q.size

def call (q : Fifo) : BufferCall → Fifo × Answer
  | .put uid =>
    if q.uids.length < q.capacity then ({ q with uids := q.uids ++ [uid] }, .put true)
    else (q, .put false)
  | .take =>
    match q.uids with
    | [] => (q, .take none)
    | uid :: uids => ({ q with taken := true, uids }, .take (some uid))

end Fifo

namespace RingBuffer

def call (r : RingBuffer) : BufferCall → RingBuffer × Answer
  | .put uid => ((r.put uid).1, .put (r.put uid).2)
  | .take => (r.take.1, .take r.take.2.toOption)

/-- The buffer holds the uids of the queue, and its cursor has left its start point if and only
if some take has succeeded. -/
structure Refines (k : ℕ) (r : RingBuffer) (q : Fifo) : Prop where
  represents : r.Represents k q.uids
  size_eq : q.size = 2 ^ k
  taken_iff : q.taken = true ↔ r.cursor ≠ START_POINT

variable {k : ℕ} {r : RingBuffer} {q : Fifo} {stock : List JLong}

theorem Refines.capacity_eq (h : Refines k r q) : q.capacity = r.capacity := by
  rw [h.represents.capacity_eq, Fifo.capacity, h.size_eq]
  by_cases hc : r.cursor = START_POINT
  · rw [if_pos hc, if_neg fun ht => h.taken_iff.mp ht hc]
  · rw [if_neg hc, if_pos (h.taken_iff.mpr hc)]

theorem Refines.call_put (h : Refines k r q) (uid : JLong) :
    Refines k (r.call (.put uid)).1 (q.call (.put uid)).1 ∧
      (r.call (.put uid)).2 = (q.call (.put uid)).2 := by
  have hcap := h.capacity_eq
  simp only [call, Fifo.call]
  by_cases hroom : q.uids.length < q.capacity
  · obtain ⟨r', hput, hrep, hcursor⟩ := put_of_room h.represents (hcap ▸ hroom) uid
    rw [if_pos hroom, hput]
    exact ⟨⟨hrep, h.size_eq, by rw [hcursor]; exact h.taken_iff⟩, rfl⟩
  · have hfull : q.uids.length = r.capacity := by
      have hfits := h.represents.fits
      omega
    rw [if_neg hroom, put_of_full h.represents hfull]
    exact ⟨h, rfl⟩

/-- A take on an empty buffer leaves its contents as they are; it may hand a padding task
to the executor. -/
theorem take_of_empty (h : r.Represents k []) :
    r.take = (r.triggerPadding r.tail r.cursor,
      .error (r.triggerPadding r.tail r.cursor).exceptionRejectedTakeBuffer) := by
  have htail : r.cursor = r.tail := by
    have := h.tail_eq
    simpa using this.symm
  simp only [take, updateAndGet, if_pos htail]
  rw [if_neg (by omega), if_pos trivial]

@[simp] theorem tail_triggerPadding (r : RingBuffer) (t c : Int) :
    (r.triggerPadding t c).tail = r.tail := by
  unfold triggerPadding
  split <;> rfl

theorem Refines.call_take (h : Refines k r q) :
    Refines k (r.call .take).1 (q.call .take).1 ∧ (r.call .take).2 = (q.call .take).2 := by
  obtain ⟨size, taken, uids⟩ := q
  cases uids with
  | nil =>
    simp only [call, Fifo.call, take_of_empty h.represents]
    refine ⟨⟨h.represents.triggerPadding _ _, h.size_eq, ?_⟩, rfl⟩
    rw [cursor_triggerPadding]
    exact h.taken_iff
  | cons uid uids =>
    obtain ⟨r', htake, hrep, hcursor⟩ := take_cons h.represents
    have hge := h.represents.cursor_ge
    simp only [call, Fifo.call, htake]
    refine ⟨⟨hrep, h.size_eq, iff_of_true rfl ?_⟩, rfl⟩
    omega

theorem Refines.call (h : Refines k r q) (c : BufferCall) :
    Refines k (r.call c).1 (q.call c).1 ∧ (r.call c).2 = (q.call c).2 := by
  cases c with
  | put uid => exact h.call_put uid
  | take => exact h.call_take

/-- Every slot belongs to one of the sequence numbers of a turn. -/
theorem Sized.exists_index (h : r.Sized k) {i : ℕ} (hi : i < 2 ^ k) (start : Int) :
    ∃ n, start < n ∧ n ≤ start + (2 ^ k : ℕ) ∧ r.calSlotIndex n = i := by
  have hp : (0 : Int) < (2 ^ k : ℕ) := by exact_mod_cast Nat.two_pow_pos k
  have hmod := Int.emod_nonneg (i - start - 1) (Int.ne_of_gt hp)
  have hlt := Int.emod_lt_of_pos (i - start - 1) hp
  refine ⟨start + 1 + (i - start - 1) % (2 ^ k : ℕ), by omega, by omega, ?_⟩
  rw [h.index_eq, Int.add_emod_emod, show start + 1 + (i - start - 1) = i by omega,
    Int.emod_eq_of_lt (by omega) (by exact_mod_cast hi)]
  rfl

/-- A flag says that its slot can be taken if and only if it belongs to a sequence number
between cursor and tail. -/
theorem Represents.flag_iff (h : r.Represents k stock) {i : ℕ} (hi : i < 2 ^ k) :
    r.flags i = CAN_TAKE_FLAG ↔ ∃ n, r.cursor < n ∧ n ≤ r.tail ∧ r.calSlotIndex n = i := by
  have htail := h.tail_eq
  constructor
  · intro hflag
    obtain ⟨n, hlo, hhi, rfl⟩ := h.toSized.exists_index hi r.cursor
    refine ⟨n, hlo, ?_, rfl⟩
    by_contra hbeyond
    have hfree := h.free n (by omega) hhi
    rw [hfree] at hflag
    exact absurd hflag (by decide)
  · intro hexists
    obtain ⟨n, hlo, hhi, rfl⟩ := hexists
    obtain ⟨j, hj⟩ : ∃ j : ℕ, n = r.cursor + 1 + j := ⟨(n - r.cursor - 1).toNat, by omega⟩
    have hlt : j < stock.length := by omega
    rw [hj]
    exact (h.contents j stock[j] (List.getElem?_eq_getElem hlt)).2

theorem refines_new {bufferSize paddingFactor : JInt} (h : new bufferSize paddingFactor = .ok r)
    (hsize : bufferSize.toNat = 2 ^ k) : Refines k r (Fifo.empty (2 ^ k)) := by
  obtain ⟨k', hrep⟩ := new_represents h
  obtain ⟨-, hbuffer, -, hcursor, -⟩ := new_eq h
  have hk : k' = k := by
    have hpow := hrep.size
    rw [hbuffer, hsize] at hpow
    exact (Nat.pow_right_injective (le_refl 2) hpow).symm
  subst hk
  exact ⟨hrep, rfl, iff_of_false Bool.false_ne_true (not_not.mpr hcursor)⟩

/-- A fresh buffer answers every list of calls as the queue does. In every state that it
reaches a refused put and a take that throws change nothing but the padding tasks handed out,
and the flags mark the slots between cursor and tail. -/
theorem refines_fifo {bufferSize paddingFactor : JInt} (hk : k < 31)
    (hsize : bufferSize.toNat = 2 ^ k)
    (hfactor : 0 < paddingFactor.toInt ∧ paddingFactor.toInt < 100) :
    ∃ fresh, new bufferSize paddingFactor = .ok fresh ∧ ∀ calls : List BufferCall,
      (answers RingBuffer.call fresh calls).2 =
        (answers Fifo.call (Fifo.empty (2 ^ k)) calls).2 ∧
      ∀ r, r = (answers RingBuffer.call fresh calls).1 →
        (∀ uid, (r.put uid).2 = false → (r.put uid).1 = r) ∧
        (∀ e, r.take.2 = .error e →
          e = r.take.1.exceptionRejectedTakeBuffer ∧ r.take.1.cursor = r.cursor ∧
            r.take.1.tail = r.tail ∧ r.take.1.slots = r.slots ∧ r.take.1.flags = r.flags) ∧
        ∀ i < 2 ^ k,
          r.flags i = CAN_TAKE_FLAG ↔ ∃ n, r.cursor < n ∧ n ≤ r.tail ∧ r.calSlotIndex n = i := by
  obtain ⟨fresh, hnew⟩ := new_total hk hsize hfactor
  refine ⟨fresh, hnew, fun calls => ?_⟩
  have hrun := answers_of_simulation (R := Refines k) (fun _ _ c h => h.call c)
    (refines_new hnew hsize) calls
  refine ⟨hrun.2, ?_⟩
  intro r hr
  rw [← hr] at hrun
  have hrep := hrun.1.represents
  refine ⟨?_, ?_, fun i hi => hrep.flag_iff hi⟩
  · intro uid hput
    rcases put_cases r uid with hrefused | ⟨-, haccepted⟩
    · rw [hrefused]
    · rw [haccepted] at hput
      cases hput
  · intro e htake
    generalize (answers Fifo.call (Fifo.empty (2 ^ k)) calls).1.uids = uids at hrep
    cases uids with
    | nil =>
      rw [take_of_empty hrep] at htake ⊢
      cases htake
      exact ⟨rfl, cursor_triggerPadding _ _ _, tail_triggerPadding _ _ _,
        slots_triggerPadding _ _ _, flags_triggerPadding _ _ _⟩
    | cons uid uids =>
      obtain ⟨r', hok, -⟩ := take_cons hrep
      rw [hok] at htake
      cases htake

/-- Four slots hold four uids, and three after the first take. -/
theorem refines_fifo_four :
    ∃ fresh, new 4 50 = .ok fresh ∧
      (answers RingBuffer.call fresh
        [.put 1, .put 2, .put 3, .put 4, .put 5, .take, .put 6, .take, .put 7]).2 =
        [.put true, .put true, .put true, .put true, .put false, .take (some 1), .put false,
          .take (some 2), .put true] := by
  obtain ⟨fresh, hnew, hcalls⟩ := @refines_fifo 2 4 50 (by decide) (by decide)
    (by decide)
  exact ⟨fresh, hnew, (hcalls _).1.trans (by decide)⟩

end RingBuffer

end BigPlan.Uid
