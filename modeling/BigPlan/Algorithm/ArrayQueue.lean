import BigPlan.Lib.Fallible
import BigPlan.Lib.Java
import BigPlan.Lib.Runs

/-!
# The circular array queue

The queue keeps the positions to take from and to put at in an array with one cell more than its
capacity. Positions move as they should around the array. What counts the elements adds the length
of the array first, and the sum need not be an int: then `size` is not positive, and `show` shows
nothing.
-/
namespace BigPlan.Algorithm

open Lib Lib.Java Lib.Runs

/-- The values of `i` in `for (int i = first; i < last; i++)`. -/
def upTo (first last : ℤ) : List ℤ := (List.range (last - first).toNat).map fun k : ℕ => first + k

inductive QueueCall where
  | push (n : JInt)
  | pop
  | peek
  | size
  | show
  deriving DecidableEq, Repr

/-- What a call returns or shows, or the message of what it throws. -/
inductive QueueAnswer where
  | done
  | element (e : JInt)
  | count (n : ℤ)
  | shown (elements : List JInt)
  | thrown (message : String)
  deriving DecidableEq, Repr

/-! ## `ArrayQueue` -/

/-- What `show` prints: a message, or cells with their positions. -/
inductive Printed where
  | message (text : String)
  | cells (cells : List (ℤ × JInt))
  deriving DecidableEq, Repr

/-- The positions are in front of `maxSize`, and the next one is an int. -/
structure ArrayQueue where
  arr : List JInt
  maxSize : ℕ
  front : ℕ
  rear : ℕ
  deriving DecidableEq, Repr

namespace ArrayQueue

def new (maxSize : ℕ) : ArrayQueue := ⟨List.replicate (maxSize + 1) 0, maxSize + 1, 0, 0⟩

def isFull (s : ArrayQueue) : Bool := (s.rear + 1) % s.maxSize == s.front

def isEmpty (s : ArrayQueue) : Bool := s.front == s.rear

def push (s : ArrayQueue) (n : JInt) : ArrayQueue × QueueAnswer :=
  if s.isFull then (s, .done)
  else if s.rear < s.arr.length then
    ({ s with arr := s.arr.set s.rear n, rear := (s.rear + 1) % s.maxSize }, .done)
  else (s, .thrown "ArrayIndexOutOfBounds")

def pop (s : ArrayQueue) : ArrayQueue × QueueAnswer :=
  if s.isEmpty then (s, .thrown "arr is empty!!!")
  else
    match s.arr[s.front]? with
    | some i =>
      ({ s with arr := s.arr.set s.front 0, front := (s.front + 1) % s.maxSize }, .element i)
    | none => (s, .thrown "ArrayIndexOutOfBounds")

def peek (s : ArrayQueue) : QueueAnswer :=
  if s.isEmpty then .thrown "arr is empty!!!"
  else
    match s.arr[s.front]? with
    | some i => .element i
    | none => .thrown "ArrayIndexOutOfBounds"

/-- The remainder has the sign of the sum. -/
def size (s : ArrayQueue) : ℤ := (wrap (wrap (s.rear + s.maxSize) - s.front)).tmod s.maxSize

/-- One turn of the loop in `show`. -/
def cell (s : ArrayQueue) (i : ℤ) : Option (ℤ × JInt) :=
  let position := i.tmod s.maxSize
  if 0 ≤ position then s.arr[position.toNat]?.map (position, ·) else none

/-- `none` if a position is out of bounds. -/
def «show» (s : ArrayQueue) : Option Printed :=
  if s.isEmpty then some (.message "arr is empty!!!")
  else ((upTo s.front (wrap (s.front + s.size))).mapM s.cell).map .cells

/-- The elements that `show` visits. -/
def answerOf : Option Printed → QueueAnswer
  | some (.message _) => .shown []
  | some (.cells cells) => .shown (cells.map Prod.snd)
  | none => .thrown "ArrayIndexOutOfBounds"

def call (s : ArrayQueue) : QueueCall → ArrayQueue × QueueAnswer
  | .push n => s.push n
  | .pop => s.pop
  | .peek => (s, s.peek)
  | .size => (s, .count s.size)
  | .show => (s, answerOf s.show)

end ArrayQueue

/-! ## What a queue is -/

/-- The elements, the first one first. -/
structure Fifo where
  capacity : ℕ
  elements : List JInt
  deriving DecidableEq, Repr

namespace Fifo

def new (capacity : ℕ) : Fifo := ⟨capacity, []⟩

def call (q : Fifo) : QueueCall → Fifo × QueueAnswer
  | .push n =>
    if q.elements.length = q.capacity then (q, .done)
    else ({ q with elements := q.elements ++ [n] }, .done)
  | .pop =>
    match q.elements with
    | [] => (q, .thrown "arr is empty!!!")
    | e :: elements => ({ q with elements := elements }, .element e)
  | .peek =>
    match q.elements with
    | [] => (q, .thrown "arr is empty!!!")
    | e :: _ => (q, .element e)
  | .size => (q, .count q.elements.length)
  | .show => (q, .shown q.elements)

@[simp] theorem capacity_call (q : Fifo) (c : QueueCall) : (q.call c).1.capacity = q.capacity := by
  obtain ⟨capacity, elements⟩ := q
  cases c with
  | push n =>
    simp only [call]
    split <;> rfl
  | pop => cases elements <;> rfl
  | peek => cases elements <;> rfl
  | size => rfl
  | «show» => rfl

end Fifo

/-! ## Positions in the array -/

section Positions

variable {m front i j : ℕ}

/-- A position is reached before the end of the array or behind it. -/
theorem position_cases (hfront : front < m) (hi : i < m) :
    front + i < m ∧ (front + i) % m = front + i ∨
      m ≤ front + i ∧ (front + i) % m = front + i - m := by
  by_cases h : front + i < m
  · exact Or.inl ⟨h, Nat.mod_eq_of_lt h⟩
  · have hge := Nat.le_of_not_lt h
    refine Or.inr ⟨hge, ?_⟩
    rw [Nat.mod_eq_sub_mod hge, Nat.mod_eq_of_lt (by omega)]

theorem position_inj (hfront : front < m) (hi : i < m) (hj : j < m)
    (h : (front + i) % m = (front + j) % m) : i = j := by
  have hi' := position_cases hfront hi
  have hj' := position_cases hfront hj
  omega

/-- The position after the last one is the first one again. -/
theorem position_eq_front (hfront : front < m) (hi : i < m) :
    (front + (i + 1)) % m = front ↔ i + 1 = m := by
  constructor
  · intro h
    by_contra hne
    have hzero := position_inj (i := i + 1) (j := 0) hfront (by omega) (by omega)
      (by rw [h, Nat.add_zero, Nat.mod_eq_of_lt hfront])
    omega
  · intro h
    rw [h, Nat.add_mod_right, Nat.mod_eq_of_lt hfront]

end Positions

/-! ## Putting and taking -/

namespace ArrayQueue

variable {s : ArrayQueue} {q : Fifo}

/-- The elements lie one after the other around the array. -/
structure Represents (s : ArrayQueue) (q : Fifo) : Prop where
  maxSize_eq : s.maxSize = q.capacity + 1
  maxSize_lt : s.maxSize < 2 ^ 31
  length_arr : s.arr.length = s.maxSize
  front_lt : s.front < s.maxSize
  length_lt : q.elements.length < s.maxSize
  rear_eq : s.rear = (s.front + q.elements.length) % s.maxSize
  getElem?_arr : ∀ i < q.elements.length,
    s.arr[(s.front + i) % s.maxSize]? = q.elements[i]?

theorem represents_new {n : ℕ} (hn : n + 1 < 2 ^ 31) : Represents (new n) (.new n) where
  maxSize_eq := rfl
  maxSize_lt := hn
  length_arr := List.length_replicate
  front_lt := Nat.succ_pos n
  length_lt := Nat.succ_pos n
  rear_eq := (Nat.zero_mod _).symm
  getElem?_arr := fun i hi => absurd hi (Nat.not_lt_zero i)

theorem Represents.rear_lt (h : Represents s q) : s.rear < s.maxSize := by
  rw [h.rear_eq]
  exact Nat.mod_lt _ (Nat.zero_lt_of_lt h.front_lt)

theorem Represents.next_rear (h : Represents s q) :
    (s.rear + 1) % s.maxSize = (s.front + (q.elements.length + 1)) % s.maxSize := by
  rw [h.rear_eq, Nat.mod_add_mod, Nat.add_assoc]

theorem Represents.isFull_iff (h : Represents s q) :
    s.isFull = true ↔ q.elements.length = q.capacity := by
  have hmax := h.maxSize_eq
  rw [isFull, beq_iff_eq, h.next_rear, position_eq_front h.front_lt h.length_lt]
  omega

theorem Represents.isEmpty_iff (h : Represents s q) : s.isEmpty = true ↔ q.elements = [] := by
  rw [isEmpty, beq_iff_eq, ← List.length_eq_zero_iff]
  have hrear := h.rear_eq
  have hcases := position_cases h.front_lt h.length_lt
  have hlt := h.length_lt
  have hfront := h.front_lt
  omega

theorem front_push (s : ArrayQueue) (n : JInt) : (s.push n).1.front = s.front := by
  unfold push
  split
  · rfl
  · split <;> rfl

theorem Represents.call_push (h : Represents s q) (n : JInt) :
    Represents (s.push n).1 (q.call (.push n)).1 ∧ (s.push n).2 = (q.call (.push n)).2 := by
  simp only [push, Fifo.call, h.isFull_iff]
  by_cases hfull : q.elements.length = q.capacity
  · rw [if_pos hfull, if_pos hfull]
    exact ⟨h, rfl⟩
  · have hrear := h.rear_lt
    have hmax := h.maxSize_eq
    have hlt := h.length_lt
    rw [if_neg hfull, if_neg hfull, if_pos (h.length_arr ▸ hrear)]
    refine ⟨⟨hmax, h.maxSize_lt, ?_, h.front_lt, ?_, ?_, ?_⟩, rfl⟩
    · rw [List.length_set]
      exact h.length_arr
    · rw [List.length_append, List.length_singleton]
      simp only
      omega
    · rw [List.length_append, List.length_singleton]
      exact h.next_rear
    · intro i hi
      rw [List.length_append, List.length_singleton] at hi
      simp only
      by_cases hlast : i = q.elements.length
      · rw [hlast, ← h.rear_eq, List.getElem?_set_self (h.length_arr ▸ hrear),
          List.getElem?_concat_length]
      · have hold : i < q.elements.length := by omega
        have hne : s.rear ≠ (s.front + i) % s.maxSize := by
          rw [h.rear_eq]
          intro heq
          exact hlast (position_inj h.front_lt hlt (by omega) heq).symm
        rw [List.getElem?_set_ne hne, List.getElem?_append_left hold]
        exact h.getElem?_arr i hold

/-- The element to be taken lies at the front. -/
theorem Represents.getElem?_front (h : Represents s q) {e : JInt} {elements : List JInt}
    (helements : q.elements = e :: elements) : s.arr[s.front]? = some e := by
  have hfirst := h.getElem?_arr 0 (by rw [helements, List.length_cons]; omega)
  rwa [Nat.add_zero, Nat.mod_eq_of_lt h.front_lt, helements, List.getElem?_cons_zero] at hfirst

theorem Represents.call_pop (h : Represents s q) :
    Represents s.pop.1 (q.call .pop).1 ∧ s.pop.2 = (q.call .pop).2 := by
  obtain ⟨capacity, elements⟩ := q
  simp only [pop, Fifo.call, h.isEmpty_iff]
  cases elements with
  | nil => exact ⟨h, rfl⟩
  | cons e elements =>
    have hlt := h.length_lt
    have hfront := h.front_lt
    rw [List.length_cons] at hlt
    have hnext : ∀ i, ((s.front + 1) % s.maxSize + i) % s.maxSize =
        (s.front + (i + 1)) % s.maxSize := by
      intro i
      rw [Nat.mod_add_mod, Nat.add_assoc, Nat.add_comm 1]
    rw [if_neg (by simp), h.getElem?_front rfl]
    refine ⟨⟨h.maxSize_eq, h.maxSize_lt, ?_, ?_, Nat.lt_of_succ_lt hlt, ?_, ?_⟩, rfl⟩
    · rw [List.length_set]
      exact h.length_arr
    · exact Nat.mod_lt _ (Nat.zero_lt_of_lt hfront)
    · rw [hnext]
      exact h.rear_eq
    · intro i hi
      have hlast : i < elements.length := hi
      have hne : s.front ≠ (s.front + (i + 1)) % s.maxSize := by
        intro heq
        have hend := (position_eq_front hfront (by omega)).mp heq.symm
        omega
      simp only
      rw [hnext, List.getElem?_set_ne hne]
      exact h.getElem?_arr (i + 1) (Nat.succ_lt_succ hi)

theorem Represents.peek_eq (h : Represents s q) : s.peek = (q.call .peek).2 := by
  obtain ⟨capacity, elements⟩ := q
  simp only [peek, Fifo.call, h.isEmpty_iff]
  cases elements with
  | nil => rfl
  | cons e elements => rw [if_neg (by simp), h.getElem?_front rfl]

/-! ## Counting and showing -/

/-- The sum of the sizes is an int, if the elements do not go around the end. -/
def CountFits (s : ArrayQueue) : Prop :=
  s.front ≤ s.rear → s.rear - s.front + s.maxSize < 2 ^ 31

/-- The end of the elements is an int, if they do. -/
def EndFits (s : ArrayQueue) : Prop :=
  s.rear < s.front → s.rear + s.maxSize < 2 ^ 31

theorem size_eq_wrap (s : ArrayQueue) :
    s.size = (wrap (s.rear + s.maxSize - s.front)).tmod s.maxSize := by
  rw [size, wrap, wrap, wrap, Int.bmod_sub_bmod]

/-- The elements go around the end of the array, or they do not. -/
theorem Represents.length_cases (h : Represents s q) :
    s.front ≤ s.rear ∧ s.front + q.elements.length = s.rear ∨
      s.rear < s.front ∧ s.front + q.elements.length = s.rear + s.maxSize := by
  have hrear := h.rear_eq
  have hcases := position_cases h.front_lt h.length_lt
  have hlt := h.length_lt
  omega

theorem Represents.size_of_countFits (h : Represents s q) (hfits : s.CountFits) :
    s.size = q.elements.length := by
  have hmax := h.maxSize_lt
  have hlt := h.length_lt
  have hfront := h.front_lt
  rw [size_eq_wrap]
  obtain ⟨hle, hlength⟩ | ⟨hgt, hlength⟩ := h.length_cases
  · have hsum := hfits hle
    have heq : (s.rear + s.maxSize - s.front : ℤ) = q.elements.length + s.maxSize := by omega
    rw [heq, wrap_of_int (by omega) (by omega), Int.tmod_eq_emod_of_nonneg (by omega),
      Int.add_emod_right, Int.emod_eq_of_lt (by omega) (by omega)]
  · have heq : (s.rear + s.maxSize - s.front : ℤ) = q.elements.length := by omega
    rw [heq, wrap_of_int (by omega) (by omega), Int.tmod_eq_emod_of_nonneg (by omega),
      Int.emod_eq_of_lt (by omega) (by omega)]

/-- Where the sum is not an int there are elements, and their number comes out as none or less. -/
theorem Represents.size_of_not_countFits (h : Represents s q) (hfits : ¬ s.CountFits) :
    -s.maxSize < s.size ∧ s.size ≤ 0 ∧ 0 < q.elements.length := by
  have hmax := h.maxSize_lt
  have hlt := h.length_lt
  have hfront := h.front_lt
  unfold CountFits at hfits
  push Not at hfits
  obtain ⟨hle, hsum⟩ := hfits
  obtain ⟨-, hlength⟩ | ⟨hgt, -⟩ := h.length_cases
  · have heq : (s.rear + s.maxSize - s.front : ℤ) = q.elements.length + s.maxSize := by omega
    have hover := wrap_of_over (x := q.elements.length + s.maxSize) (by omega) (by omega)
    have hsign : 0 ≤ (-(q.elements.length + s.maxSize - 2 ^ 32 : ℤ)).tmod s.maxSize :=
      Int.tmod_nonneg _ (by omega)
    rw [Int.neg_tmod] at hsign
    rw [size_eq_wrap, heq, hover]
    exact ⟨Int.lt_tmod_of_pos _ (by omega), by omega, by omega⟩
  · omega

/-- A call that counts does so while what it computes is an int. -/
def Fits (s : ArrayQueue) : QueueCall → Prop
  | .size => s.CountFits
  | .show => s.CountFits ∧ s.EndFits
  | .push _ | .pop | .peek => True

instance (s : ArrayQueue) : Decidable s.CountFits :=
  inferInstanceAs (Decidable (s.front ≤ s.rear → s.rear - s.front + s.maxSize < 2 ^ 31))

instance (s : ArrayQueue) : Decidable s.EndFits :=
  inferInstanceAs (Decidable (s.rear < s.front → s.rear + s.maxSize < 2 ^ 31))

instance (s : ArrayQueue) : (c : QueueCall) → Decidable (s.Fits c)
  | .size => inferInstanceAs (Decidable s.CountFits)
  | .show => inferInstanceAs (Decidable (s.CountFits ∧ s.EndFits))
  | .push _ | .pop | .peek => isTrue trivial

theorem Represents.cell_eq (h : Represents s q) {i : ℕ} (hi : i < q.elements.length) :
    s.cell (s.front + i) = some ((((s.front + i) % s.maxSize : ℕ) : ℤ), q.elements[i]) := by
  have hposition : (s.front + i : ℤ).tmod s.maxSize = ((s.front + i) % s.maxSize : ℕ) := by
    rw [Int.tmod_eq_emod_of_nonneg (by omega)]
    rfl
  unfold cell
  rw [hposition]
  simp only [Int.natCast_nonneg, if_true, Int.toNat_natCast, h.getElem?_arr i hi,
    List.getElem?_eq_getElem hi, Option.map_some]

/-- The loop visits the elements in order. -/
theorem Represents.cells_eq (h : Represents s q) :
    ∃ cells, (upTo s.front (s.front + q.elements.length)).mapM s.cell = some cells ∧
      cells.map Prod.snd = q.elements := by
  have hread : ∀ i ∈ List.range q.elements.length, s.cell (s.front + i) =
      some ((((s.front + i) % s.maxSize : ℕ) : ℤ), q.elements.getD i 0) := by
    intro i hi
    rw [List.mem_range] at hi
    rw [h.cell_eq hi, List.getD_eq_getElem _ _ hi]
  refine ⟨(List.range q.elements.length).map fun i =>
    ((((s.front + i) % s.maxSize : ℕ) : ℤ), q.elements.getD i 0), ?_, ?_⟩
  · have hturns : (s.front + q.elements.length - s.front : ℤ).toNat = q.elements.length := by omega
    rw [upTo, hturns, List.mapM_map]
    exact Fallible.mapM_eq_some hread
  · rw [List.map_map]
    apply List.ext_getElem
    · rw [List.length_map, List.length_range]
    · intro i _ hi
      rw [List.getElem_map, List.getElem_range, Function.comp_apply]
      exact List.getD_eq_getElem _ _ hi

/-- The elements are shown if both sums are ints. -/
theorem Represents.show_of_fits (h : Represents s q) (hfits : s.CountFits ∧ s.EndFits) :
    answerOf s.show = .shown q.elements := by
  unfold ArrayQueue.show
  by_cases hempty : s.isEmpty = true
  · rw [if_pos hempty, h.isEmpty_iff.mp hempty]
    rfl
  · have hmax := h.maxSize_lt
    have hrear := h.rear_lt
    have hend : (s.front + q.elements.length : ℤ) < 2 ^ 31 := by
      obtain ⟨-, hlength⟩ | ⟨hgt, hlength⟩ := h.length_cases
      · omega
      · have hsum := hfits.2 hgt
        omega
    obtain ⟨cells, hcells, helements⟩ := h.cells_eq
    rw [if_neg hempty, h.size_of_countFits hfits.1, wrap_of_int (by omega) hend, hcells,
      Option.map_some, answerOf, helements]

/-- Otherwise there are some, and none of them is shown. -/
theorem Represents.show_of_not_fits (h : Represents s q) (hfits : ¬ (s.CountFits ∧ s.EndFits)) :
    answerOf s.show = .shown [] ∧ q.elements ≠ [] := by
  have hmax := h.maxSize_lt
  have hrear := h.rear_lt
  have hfront := h.front_lt
  have hlast : wrap (s.front + s.size) ≤ s.front ∧ 0 < q.elements.length := by
    by_cases hcount : s.CountFits
    · have hover : ¬ s.EndFits := fun hover => hfits ⟨hcount, hover⟩
      unfold EndFits at hover
      push Not at hover
      obtain ⟨hgt, hsum⟩ := hover
      obtain ⟨hle, -⟩ | ⟨-, hlength⟩ := h.length_cases
      · omega
      · rw [h.size_of_countFits hcount, wrap_of_over (by omega) (by omega)]
        omega
    · obtain ⟨hlo, hhi, hsome⟩ := h.size_of_not_countFits hcount
      rw [wrap_of_int (by omega) (by omega)]
      omega
  have hne : q.elements ≠ [] := List.length_pos_iff.mp hlast.2
  have hnone : (wrap (s.front + s.size) - s.front).toNat = 0 := by omega
  refine ⟨?_, hne⟩
  rw [ArrayQueue.show, if_neg fun hempty => hne (h.isEmpty_iff.mp hempty), upTo, hnone]
  rfl

/-! ## First in, first out -/

theorem Represents.call (h : Represents s q) {c : QueueCall} (hfits : s.Fits c) :
    Represents (s.call c).1 (q.call c).1 ∧ (s.call c).2 = (q.call c).2 := by
  cases c with
  | push n => exact h.call_push n
  | pop => exact h.call_pop
  | peek =>
    refine ⟨?_, h.peek_eq⟩
    obtain ⟨capacity, elements⟩ := q
    cases elements <;> exact h
  | size => exact ⟨h, congrArg QueueAnswer.count (h.size_of_countFits hfits)⟩
  | «show» => exact ⟨h, h.show_of_fits hfits⟩

theorem Represents.call_ne (h : Represents s q) {c : QueueCall} (hfits : ¬ s.Fits c) :
    (s.call c).2 ≠ (q.call c).2 := by
  cases c with
  | push n => exact absurd trivial hfits
  | pop => exact absurd trivial hfits
  | peek => exact absurd trivial hfits
  | size =>
    obtain ⟨-, hhi, hsome⟩ := h.size_of_not_countFits hfits
    simp only [ArrayQueue.call, Fifo.call, ne_eq, QueueAnswer.count.injEq]
    omega
  | «show» =>
    obtain ⟨hshown, hne⟩ := h.show_of_not_fits hfits
    simp only [ArrayQueue.call, Fifo.call, hshown, ne_eq, QueueAnswer.shown.injEq]
    exact fun hnil => hne hnil.symm

/-- A push on a full queue and a call that throws leave the queue as it was. -/
def Unchanged (s : ArrayQueue) (c : QueueCall) : Prop :=
  ((∃ n, c = .push n) ∧ s.isFull = true ∨ ∃ message, (s.call c).2 = .thrown message) →
    (s.call c).1 = s

theorem unchanged_call (s : ArrayQueue) (c : QueueCall) : Unchanged s c := by
  intro hcase
  cases c with
  | push n =>
    simp only [ArrayQueue.call, push] at hcase ⊢
    split
    · rfl
    · rename_i hfull
      split
      · rename_i hlt
        obtain ⟨-, htrue⟩ | ⟨message, hthrown⟩ := hcase
        · exact absurd htrue hfull
        · rw [if_neg hfull, if_pos hlt] at hthrown
          cases hthrown
      · rfl
  | pop =>
    obtain ⟨⟨n, hpush⟩, -⟩ | ⟨message, hthrown⟩ := hcase
    · cases hpush
    · simp only [ArrayQueue.call, pop] at hthrown ⊢
      split at hthrown
      · rename_i hempty
        rw [if_pos hempty]
      · rename_i hempty
        rw [if_neg hempty]
        cases hfront : s.arr[s.front]? with
        | none => rfl
        | some i =>
          rw [hfront] at hthrown
          cases hthrown
  | peek => rfl
  | size => rfl
  | «show» => rfl

/-- The queue gives the results of the bounded queue for the calls, and calls that are not carried
out leave it as it was. -/
structure IsFifo (n : ℕ) (calls : List QueueCall) : Prop where
  answers_eq : (answers ArrayQueue.call (new n) calls).2 = (answers Fifo.call (.new n) calls).2
  unchanged : Along (fun s c => (ArrayQueue.call s c).1) Unchanged (new n) calls

/-- One step of a run. -/
def after (s : ArrayQueue) (c : QueueCall) : ArrayQueue := (s.call c).1

theorem answers_eq_iff {n : ℕ} (hint : n + 1 < 2 ^ 31) (calls : List QueueCall) :
    (answers ArrayQueue.call (new n) calls).2 = (answers Fifo.call (.new n) calls).2 ↔
      Along after Fits (new n) calls := by
  have hcall : ∀ s q c, Represents s q → Fits s c →
      Represents (s.call c).1 (q.call c).1 ∧ (s.call c).2 = (q.call c).2 :=
    fun _ _ _ h hfits => h.call hfits
  have hne : ∀ s q c, Represents s q → ¬ Fits s c → (s.call c).2 ≠ (q.call c).2 :=
    fun _ _ _ h hfits => h.call_ne hfits
  exact answers_eq_iff_along hcall hne (represents_new hint) calls

/-- The queue is first in, first out for the calls if and only if each call that counts computes
an int. -/
theorem isFifo_iff (n : ℕ) (hint : n + 1 < 2 ^ 31) (calls : List QueueCall) :
    IsFifo n calls ↔ Along after Fits (new n) calls := by
  rw [← answers_eq_iff hint]
  constructor
  · exact IsFifo.answers_eq
  · intro hanswers
    exact ⟨hanswers, along_of_forall unchanged_call _ calls⟩

theorem isFifo_iff_three :
    3 + 1 < 2 ^ 31 ∧
      IsFifo 3 [.push 1, .push 2, .push 3, .size, .pop, .push 4, .show, .pop, .pop, .pop] :=
  ⟨by decide, (isFifo_iff 3 (by decide) _).mpr (by decide)⟩

/-! ## Which capacities are safe -/

/-- For a capacity below 2^30 every call fits. -/
theorem Represents.fits (h : Represents s q) (hsmall : q.capacity < 2 ^ 30) (c : QueueCall) :
    s.Fits c := by
  have hmax := h.maxSize_eq
  have hrear := h.rear_lt
  have hcount : s.CountFits := by
    intro _
    omega
  have hend : s.EndFits := by
    intro _
    omega
  cases c with
  | push n => trivial
  | pop => trivial
  | peek => trivial
  | size => exact hcount
  | «show» => exact ⟨hcount, hend⟩

theorem along_fits_of_small {n : ℕ} (hsmall : n < 2 ^ 30) (calls : List QueueCall) :
    Along after Fits (new n) calls := by
  have hint : n + 1 < 2 ^ 31 := by omega
  refine along_of_invariant (P := fun s => ∃ q, Represents s q ∧ q.capacity = n) ?_ ?_
    ⟨_, represents_new hint, rfl⟩ calls
  · intro s c hs
    obtain ⟨q, h, rfl⟩ := hs
    exact h.fits hsmall c
  · intro s c hs
    obtain ⟨q, h, rfl⟩ := hs
    exact ⟨_, (h.call (h.fits hsmall c)).1, Fifo.capacity_call q c⟩

/-- Pushes fill a new queue from the first cell on. -/
theorem represents_pushes {n : ℕ} (hint : n + 1 < 2 ^ 31) (e : JInt) {k : ℕ} (hk : k ≤ n) :
    Represents (run after (new n) (List.replicate k (.push e))) ⟨n, List.replicate k e⟩ ∧
      (run after (new n) (List.replicate k (.push e))).front = 0 := by
  induction k with
  | zero => exact ⟨represents_new hint, rfl⟩
  | succ k ih =>
    obtain ⟨hrep, hfront⟩ := ih (Nat.le_of_succ_le hk)
    have hrun : run after (new n) (List.replicate (k + 1) (.push e)) =
        ((run after (new n) (List.replicate k (.push e))).push e).1 := by
      rw [List.replicate_succ', run, List.foldl_append]
      rfl
    have hroom : ¬ (List.replicate k e).length = n := by
      rw [List.length_replicate]
      omega
    have hpush := (hrep.call_push e).1
    simp only [Fifo.call, if_neg hroom, ← List.replicate_succ'] at hpush
    rw [hrun]
    refine ⟨hpush, ?_⟩
    rw [front_push]
    exact hfront

/-- With so many elements that the sum of the sizes is not an int, the queue is asked for its
size. -/
theorem not_along_fits {n k : ℕ} (hint : n + 1 < 2 ^ 31) (hk : k ≤ n)
    (hover : 2 ^ 31 ≤ k + (n + 1)) :
    ¬ Along after Fits (new n) (List.replicate k (.push 0) ++ [.size]) := by
  intro halong
  obtain ⟨hrep, hfront⟩ := represents_pushes hint 0 hk
  have hfits := ((along_append _ _ _).mp halong).2.1
  have hmax := hrep.maxSize_eq
  have hlength := hrep.length_cases
  simp only [List.length_replicate] at hmax hlength
  have hsum := hfits (by omega)
  omega

/-- A queue of the capacity is first in, first out for all calls if and only if the capacity is
below 2^30. -/
theorem forall_answers_iff {n : ℕ} (hint : n + 1 < 2 ^ 31) :
    (∀ calls, (answers ArrayQueue.call (new n) calls).2 =
      (answers Fifo.call (.new n) calls).2) ↔ n < 2 ^ 30 := by
  constructor
  · intro hall
    by_contra hlarge
    exact not_along_fits hint (Nat.le_refl n) (by omega) ((answers_eq_iff hint _).mp (hall _))
  · intro hsmall calls
    exact (answers_eq_iff hint calls).mpr (along_fits_of_small hsmall calls)

/-- Eight elements in a queue for 2^31 - 9. -/
theorem not_isFifo : ¬ ∀ n, 1 ≤ n → n + 1 < 2 ^ 31 → ∀ calls, IsFifo n calls := by
  intro h
  have hint : 2147483639 + 1 < 2 ^ 31 := by decide
  have hanswers := (h 2147483639 (by decide) hint (List.replicate 8 (.push 0) ++ [.size])).answers_eq
  exact not_along_fits hint (by decide) (by decide) ((answers_eq_iff hint _).mp hanswers)

end ArrayQueue

end BigPlan.Algorithm
