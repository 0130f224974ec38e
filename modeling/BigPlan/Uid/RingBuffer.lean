import Mathlib.Logic.Function.Basic
import BigPlan.Uid.BitsAllocator

/-!
# The ring buffer

Slots and flags are indexed by the low bits of a sequence number. Sequence numbers
start at -1 and are kept as integers: 2^63 of them are out of reach. `put` and
`take` are given here as complete calls; the rejection handlers are the default
ones, of which the one for `take` throws.
-/
namespace BigPlan.Uid

open Lib.Java

/-- `Integer.bitCount`. -/
def bitCount (x : JInt) : Nat := (List.range 32).countP fun i => x.getLsbD i

/-- An int with one bit set is a power of two. -/
theorem toNat_of_bitCount_one {x : JInt} (h : bitCount x = 1) : ∃ k < 32, x.toNat = 2 ^ k := by
  rw [bitCount, List.countP_eq_length_filter, List.length_eq_one_iff] at h
  obtain ⟨k, hk⟩ := h
  have hmem : ∀ i, i < 32 ∧ x.getLsbD i = true ↔ i = k := by
    intro i
    have hi : i ∈ (List.range 32).filter (fun i => x.getLsbD i) ↔ i = k := by
      rw [hk, List.mem_singleton]
    rwa [List.mem_filter, List.mem_range] at hi
  obtain ⟨hlt, _⟩ := (hmem k).mpr rfl
  have hx : x = BitVec.twoPow 32 k := by
    apply BitVec.eq_of_getLsbD_eq
    intro i hi
    rw [BitVec.getLsbD_twoPow, Bool.eq_iff_iff]
    have := hmem i
    simp only [hlt, decide_true, Bool.true_and, decide_eq_true_eq]
    exact ⟨fun hb => ((this.mp ⟨hi, hb⟩)).symm, fun he => (this.mpr he.symm).2⟩
  refine ⟨k, hlt, ?_⟩
  rw [hx, BitVec.toNat_twoPow, Nat.mod_eq_of_lt (Nat.pow_lt_pow_right (by decide) hlt)]

def START_POINT : Int := -1
def CAN_PUT_FLAG : JLong := 0
def CAN_TAKE_FLAG : JLong := 1
def DEFAULT_PADDING_PERCENT : JInt := 50

structure RingBuffer where
  bufferSize : JInt
  indexMask : JLong
  slots : Nat → JLong
  flags : Nat → JLong
  tail : Int
  cursor : Int
  paddingThreshold : JInt
  /-- How many padding tasks were handed to the executor. -/
  asyncPaddings : Nat

namespace RingBuffer

def new (bufferSize paddingFactor : JInt) : Except UidError RingBuffer :=
  if ¬ bufferSize.toInt > 0 then
    .error (.illegalArgument "RingBuffer size must be positive")
  else if ¬ bitCount bufferSize = 1 then
    .error (.illegalArgument "RingBuffer size must be a power of 2")
  else if ¬ (paddingFactor.toInt > 0 ∧ paddingFactor.toInt < 100) then
    .error (.illegalArgument "RingBuffer size must be positive")
  else
    .ok
      { bufferSize
        indexMask := (bufferSize - 1).signExtend 64
        slots := fun _ => 0
        flags := fun _ => CAN_PUT_FLAG
        tail := START_POINT
        cursor := START_POINT
        paddingThreshold := (bufferSize * paddingFactor).sdiv 100
        asyncPaddings := 0 }

def toString (r : RingBuffer) : String :=
  "RingBuffer [bufferSize=" ++ r.bufferSize.toInt.repr ++ ", tail=" ++ r.tail.repr ++
    ", cursor=" ++ r.cursor.repr ++ ", paddingThreshold=" ++ r.paddingThreshold.toInt.repr ++ "]"

def calSlotIndex (r : RingBuffer) (sequence : Int) : Nat :=
  (BitVec.ofInt 64 sequence &&& r.indexMask).toNat

def setFlag (r : RingBuffer) (index : Nat) (flag : JLong) : RingBuffer :=
  { r with flags := Function.update r.flags index flag }

def put (r : RingBuffer) (uid : JLong) : RingBuffer × Bool :=
  let currentTail := r.tail
  let currentCursor := r.cursor
  let distance := currentTail - (if currentCursor = START_POINT then 0 else currentCursor)
  if distance = (r.bufferSize - 1).toInt then (r, false)
  else
    let nextTailIndex := r.calSlotIndex (currentTail + 1)
    if r.flags nextTailIndex ≠ CAN_PUT_FLAG then (r, false)
    else
      let r : RingBuffer := { r with slots := Function.update r.slots nextTailIndex uid }
      let r := r.setFlag nextTailIndex CAN_TAKE_FLAG
      ({ r with tail := r.tail + 1 }, true)

/-- `cursor.updateAndGet`: the cursor stops at the tail. -/
def updateAndGet (r : RingBuffer) : RingBuffer :=
  if r.cursor = r.tail then r else { r with cursor := r.cursor + 1 }

/-- Hand a padding task to the executor when few uids are left. -/
def triggerPadding (r : RingBuffer) (currentTail nextCursor : Int) : RingBuffer :=
  if currentTail - nextCursor < r.paddingThreshold.toInt then
    { r with asyncPaddings := r.asyncPaddings + 1 }
  else r

def exceptionRejectedTakeBuffer (r : RingBuffer) : UidError :=
  .runtime ("Rejected take buffer. " ++ r.toString)

def take (r : RingBuffer) : RingBuffer × Except UidError JLong :=
  let currentCursor := r.cursor
  let r := r.updateAndGet
  let nextCursor := r.cursor
  if ¬ nextCursor ≥ currentCursor then
    (r, .error (.illegalArgument "Curosr can't move back"))
  else
    let currentTail := r.tail
    let r := r.triggerPadding currentTail nextCursor
    if nextCursor = currentCursor then (r, .error r.exceptionRejectedTakeBuffer)
    else
      let nextCursorIndex := r.calSlotIndex nextCursor
      if ¬ r.flags nextCursorIndex = CAN_TAKE_FLAG then
        (r, .error (.illegalArgument "Curosr not in can take status"))
      else
        let uid := r.slots nextCursorIndex
        (r.setFlag nextCursorIndex CAN_PUT_FLAG, .ok uid)

theorem bitCount_two_pow {x : JInt} {k : Nat} (hk : k < 32) (h : x.toNat = 2 ^ k) :
    bitCount x = 1 := by
  have hx : x = BitVec.twoPow 32 k := by
    apply BitVec.eq_of_toNat_eq
    rw [h, BitVec.toNat_twoPow, Nat.mod_eq_of_lt (Nat.pow_lt_pow_right (by decide) hk)]
  have hall : ∀ k < 32, bitCount (BitVec.twoPow 32 k) = 1 := by decide
  rw [hx, hall k hk]

/-- Every power of two that is an int is accepted as a size. -/
theorem new_total {bufferSize paddingFactor : JInt} {k : Nat} (hk : k < 31)
    (hsize : bufferSize.toNat = 2 ^ k) (hfactor : 0 < paddingFactor.toInt ∧ paddingFactor.toInt < 100) :
    ∃ r, new bufferSize paddingFactor = .ok r := by
  have hlt : 2 ^ k < 2 ^ 31 := Nat.pow_lt_pow_right (by decide) hk
  have hp := Nat.two_pow_pos k
  have hpos : bufferSize.toInt > 0 := by
    rw [BitVec.toInt_eq_toNat_cond, if_pos (by omega)]
    omega
  unfold new
  rw [if_neg (not_not.mpr hpos), if_neg (not_not.mpr (bitCount_two_pow (by omega) hsize)),
    if_neg (not_not.mpr hfactor)]
  exact ⟨_, rfl⟩

/-- A buffer of `2 ^ k` slots with the mask that belongs to it. -/
structure Sized (r : RingBuffer) (k : Nat) : Prop where
  lt : k < 31
  size : r.bufferSize.toNat = 2 ^ k
  mask : r.indexMask.toNat = 2 ^ k - 1

variable {r : RingBuffer} {k : Nat}

theorem new_eq {bufferSize paddingFactor : JInt} (h : new bufferSize paddingFactor = .ok r) :
    (∃ k, r.Sized k) ∧ r.bufferSize = bufferSize ∧ r.tail = START_POINT ∧
      r.cursor = START_POINT ∧ ∀ i, r.flags i = CAN_PUT_FLAG := by
  unfold new at h
  split at h
  · cases h
  split at h
  · cases h
  split at h
  · cases h
  rename_i hpos hbits _
  cases h
  obtain ⟨k, hk, hsize⟩ := toNat_of_bitCount_one (not_not.mp hbits)
  have hlt : bufferSize.toNat < 2 ^ 31 := by
    have := bufferSize.isLt
    rw [BitVec.toInt_eq_toNat_cond] at hpos
    split at hpos <;> omega
  have hk' : k < 31 := by
    rw [hsize] at hlt
    exact (Nat.pow_lt_pow_iff_right (by decide)).mp hlt
  have h1 : (1 : JInt).toNat = 1 := by decide
  have hp := Nat.two_pow_pos k
  have hsub : (bufferSize - 1).toNat = 2 ^ k - 1 := by
    rw [BitVec.toNat_sub, h1, hsize]
    omega
  refine ⟨⟨k, hk', hsize, ?_⟩, rfl, rfl, rfl, fun _ => rfl⟩
  show ((bufferSize - 1).signExtend 64).toNat = 2 ^ k - 1
  rw [BitVec.signExtend_eq_setWidth_of_msb_false, BitVec.toNat_setWidth, hsub]
  · omega
  · rw [BitVec.msb_eq_false_iff_two_mul_lt, hsub]
    omega

theorem Sized.index_eq (h : r.Sized k) (n : Int) :
    r.calSlotIndex n = (n % (2 ^ k : Nat)).toNat := by
  have hdvd : ((2 ^ k : Nat) : Int) ∣ ((2 ^ 64 : Nat) : Int) :=
    Int.natCast_dvd_natCast.mpr (Nat.pow_dvd_pow 2 (by have := h.lt; omega))
  have hp : (0 : Int) < (2 ^ k : Nat) := by exact_mod_cast Nat.two_pow_pos k
  rw [calSlotIndex, BitVec.toNat_and, h.mask, Nat.and_two_pow_sub_one_eq_mod, BitVec.toNat_ofInt]
  apply Int.ofNat_inj.mp
  rw [Int.natCast_mod, Int.toNat_of_nonneg (Int.emod_nonneg _ (by decide)),
    Int.toNat_of_nonneg (Int.emod_nonneg _ (Int.ne_of_gt hp)), Int.emod_emod_of_dvd _ hdvd]

/-- Sequences that are less than one turn apart have different slots. -/
theorem Sized.index_inj (h : r.Sized k) {n m : Int} (hnm : n < m) (hlt : m < n + (2 ^ k : Nat)) :
    r.calSlotIndex n ≠ r.calSlotIndex m := by
  have hp : (0 : Int) < (2 ^ k : Nat) := by exact_mod_cast Nat.two_pow_pos k
  rw [h.index_eq, h.index_eq]
  intro he
  have hn := Int.emod_nonneg n (Int.ne_of_gt hp)
  have hm := Int.emod_nonneg m (Int.ne_of_gt hp)
  have hmod : m % (2 ^ k : Nat) = n % (2 ^ k : Nat) := by omega
  rw [Int.emod_eq_emod_iff_emod_sub_eq_zero, Int.emod_eq_of_lt (by omega) (by omega)] at hmod
  omega

theorem Sized.index_add (h : r.Sized k) (n : Int) :
    r.calSlotIndex (n + (2 ^ k : Nat)) = r.calSlotIndex n := by
  rw [h.index_eq, h.index_eq, Int.add_emod_right]

@[simp] theorem calSlotIndex_update (r : RingBuffer) (slots flags : Nat → JLong)
    (tail cursor n : Int) (asyncPaddings : Nat) :
    ({ r with slots, flags, tail, cursor, asyncPaddings } : RingBuffer).calSlotIndex n =
      r.calSlotIndex n := rfl

/-- Everything `put` can do: refuse, or fill a free slot and move the tail over it. -/
theorem put_cases (r : RingBuffer) (uid : JLong) :
    r.put uid = (r, false) ∨
      r.flags (r.calSlotIndex (r.tail + 1)) = CAN_PUT_FLAG ∧
        r.put uid = ({ r with
          slots := Function.update r.slots (r.calSlotIndex (r.tail + 1)) uid
          flags := Function.update r.flags (r.calSlotIndex (r.tail + 1)) CAN_TAKE_FLAG
          tail := r.tail + 1 }, true) := by
  simp only [put]
  generalize (r.tail - if r.cursor = START_POINT then 0 else r.cursor) = distance
  split
  · exact Or.inl rfl
  · split
    · exact Or.inl rfl
    · rename_i hflag
      exact Or.inr ⟨not_not.mp hflag, rfl⟩

@[simp] theorem calSlotIndex_triggerPadding (r : RingBuffer) (t c n : Int) :
    (r.triggerPadding t c).calSlotIndex n = r.calSlotIndex n := by
  unfold triggerPadding
  split <;> rfl

@[simp] theorem flags_triggerPadding (r : RingBuffer) (t c : Int) :
    (r.triggerPadding t c).flags = r.flags := by
  unfold triggerPadding
  split <;> rfl

@[simp] theorem slots_triggerPadding (r : RingBuffer) (t c : Int) :
    (r.triggerPadding t c).slots = r.slots := by
  unfold triggerPadding
  split <;> rfl

@[simp] theorem cursor_triggerPadding (r : RingBuffer) (t c : Int) :
    (r.triggerPadding t c).cursor = r.cursor := by
  unfold triggerPadding
  split <;> rfl

/-- One slot fewer can be filled once the cursor has left its start point. -/
def capacity (r : RingBuffer) : Nat :=
  if r.cursor = START_POINT then r.bufferSize.toNat else r.bufferSize.toNat - 1

/-- The ring as a first-in first-out queue of the uids between cursor and tail. -/
structure Represents (r : RingBuffer) (k : Nat) (stock : List JLong) : Prop extends Sized r k where
  cursor_ge : START_POINT ≤ r.cursor
  tail_eq : r.tail = r.cursor + stock.length
  fits : stock.length ≤ r.capacity
  contents : ∀ (i : Nat) (uid : JLong), stock[i]? = some uid →
    r.slots (r.calSlotIndex (r.cursor + 1 + i)) = uid ∧
      r.flags (r.calSlotIndex (r.cursor + 1 + i)) = CAN_TAKE_FLAG
  free : ∀ n : Int, r.tail < n → n ≤ r.cursor + (2 ^ k : Nat) →
    r.flags (r.calSlotIndex n) = CAN_PUT_FLAG

theorem new_represents {bufferSize paddingFactor : JInt} (h : new bufferSize paddingFactor = .ok r) :
    ∃ k, r.Represents k [] := by
  obtain ⟨⟨k, hk⟩, _, ht, hc, hf⟩ := new_eq h
  exact ⟨k, hk, Int.le_of_eq hc.symm, by rw [ht, hc]; rfl, Nat.zero_le _, by simp, fun n _ _ => hf _⟩

variable {stock : List JLong}

theorem Represents.capacity_eq (h : r.Represents k stock) :
    r.capacity = if r.cursor = START_POINT then 2 ^ k else 2 ^ k - 1 := by
  rw [capacity, h.size]

/-- The distance that `put` computes reaches its limit when the queue is full. -/
theorem Represents.distance_iff (h : r.Represents k stock) :
    r.tail - (if r.cursor = START_POINT then 0 else r.cursor) = (r.bufferSize - 1).toInt ↔
      stock.length = r.capacity := by
  have hlt : 2 ^ k < 2 ^ 31 := Nat.pow_lt_pow_right (by decide) h.lt
  have hp := Nat.two_pow_pos k
  have h1 : (1 : JInt).toNat = 1 := by decide
  have hsub : (r.bufferSize - 1).toNat = 2 ^ k - 1 := by
    rw [BitVec.toNat_sub, h1, h.size]
    omega
  have hint : (r.bufferSize - 1).toInt = ((2 ^ k - 1 : Nat) : Int) := by
    rw [BitVec.toInt_eq_toNat_cond, if_pos (by omega), hsub]
  rw [hint, h.capacity_eq, h.tail_eq]
  split
  · rename_i hc
    rw [hc, START_POINT]
    omega
  · omega

theorem put_of_full (h : r.Represents k stock) (hfull : stock.length = r.capacity) (uid : JLong) :
    r.put uid = (r, false) := by
  simp only [put]
  rw [if_pos (h.distance_iff.mpr hfull)]

theorem put_of_room (h : r.Represents k stock) (hroom : stock.length < r.capacity) (uid : JLong) :
    ∃ r', r.put uid = (r', true) ∧ r'.Represents k (stock ++ [uid]) ∧ r'.cursor = r.cursor := by
  have hcap := h.capacity_eq
  have htail := h.tail_eq
  have hsize : stock.length < 2 ^ k := by
    split at hcap <;> omega
  have hfree : r.flags (r.calSlotIndex (r.tail + 1)) = CAN_PUT_FLAG :=
    h.free _ (by omega) (by omega)
  simp only [put]
  rw [if_neg (fun hd => by have := h.distance_iff.mp hd; omega), if_neg (not_not.mpr hfree)]
  refine ⟨_, rfl, ⟨⟨h.lt, h.size, h.mask⟩, h.cursor_ge, ?_, ?_, ?_, ?_⟩, rfl⟩
  · simp only [setFlag, List.length_append, List.length_singleton]
    omega
  · rw [List.length_append, List.length_singleton]
    exact hroom
  · intro i u hu
    simp only [setFlag, calSlotIndex_update]
    rcases Nat.lt_trichotomy i stock.length with hi | rfl | hi
    · rw [List.getElem?_append_left hi] at hu
      have hne := h.index_inj (n := r.cursor + 1 + i) (m := r.tail + 1) (by omega) (by omega)
      rw [Function.update_of_ne hne, Function.update_of_ne hne]
      exact h.contents i u hu
    · rw [List.getElem?_append_right le_rfl, Nat.sub_self] at hu
      have hseq : r.cursor + 1 + stock.length = r.tail + 1 := by omega
      rw [hseq, Function.update_self, Function.update_self]
      exact ⟨Option.some.inj hu, rfl⟩
    · rw [List.getElem?_eq_none (by simp; omega)] at hu
      cases hu
  · intro n hn hle
    simp only [setFlag, calSlotIndex_update] at hn hle ⊢
    have hne := h.index_inj (n := r.tail + 1) (m := n) (by omega) (by omega)
    rw [Function.update_of_ne hne.symm]
    exact h.free n (by omega) hle

theorem Represents.triggerPadding (h : r.Represents k stock) (t c : Int) :
    (r.triggerPadding t c).Represents k stock := by
  unfold RingBuffer.triggerPadding
  split
  · exact ⟨⟨h.lt, h.size, h.mask⟩, h.cursor_ge, h.tail_eq, h.fits, h.contents, h.free⟩
  · exact h

theorem take_nil (h : r.Represents k []) :
    ∃ r' e, r.take = (r', .error e) ∧ r'.Represents k [] ∧ r'.cursor = r.cursor := by
  have htail : r.cursor = r.tail := by
    rw [h.tail_eq, List.length_nil]
    omega
  simp only [take, updateAndGet, if_pos htail]
  rw [if_neg (by omega), if_pos trivial]
  exact ⟨_, _, rfl, h.triggerPadding _ _, cursor_triggerPadding _ _ _⟩

/-- A take moves the cursor over the first uid and frees its slot. -/
theorem Represents.tail_stock {uid : JLong} (h : r.Represents k (uid :: stock)) (paddings : Nat) :
    ({ r with
        cursor := r.cursor + 1
        asyncPaddings := paddings
        flags := Function.update r.flags (r.calSlotIndex (r.cursor + 1)) CAN_PUT_FLAG } :
      RingBuffer).Represents k stock := by
  have hge := h.cursor_ge
  have htail := h.tail_eq
  have hfits := h.fits
  have hcap := h.capacity_eq
  have hp := Nat.two_pow_pos k
  rw [List.length_cons] at htail hfits
  refine ⟨⟨h.lt, h.size, h.mask⟩, Int.le_add_one hge, ?_, ?_, ?_, ?_⟩
  · show r.tail = r.cursor + 1 + stock.length
    omega
  · rw [capacity, if_neg (show ¬ r.cursor + 1 = START_POINT by omega)]
    show stock.length ≤ r.bufferSize.toNat - 1
    rw [h.size]
    split at hcap <;> omega
  · intro i u hu
    have hi := (List.getElem?_eq_some_iff.mp hu).1
    have hc := h.contents (i + 1) u hu
    rw [show r.cursor + 1 + ((i + 1 : Nat) : Int) = r.cursor + 1 + 1 + i by omega] at hc
    have hne := h.index_inj (n := r.cursor + 1) (m := r.cursor + 1 + 1 + i) (by omega)
      (by split at hcap <;> omega)
    change r.slots (r.calSlotIndex (r.cursor + 1 + 1 + i)) = u ∧
      Function.update r.flags (r.calSlotIndex (r.cursor + 1)) CAN_PUT_FLAG
        (r.calSlotIndex (r.cursor + 1 + 1 + i)) = CAN_TAKE_FLAG
    rw [Function.update_of_ne hne.symm]
    exact hc
  · intro n hn hle
    change r.tail < n at hn
    change n ≤ r.cursor + 1 + (2 ^ k : Nat) at hle
    change Function.update r.flags (r.calSlotIndex (r.cursor + 1)) CAN_PUT_FLAG
      (r.calSlotIndex n) = CAN_PUT_FLAG
    by_cases heq : r.calSlotIndex n = r.calSlotIndex (r.cursor + 1)
    · rw [heq, Function.update_self]
    · rw [Function.update_of_ne heq]
      refine h.free n hn ?_
      rcases Int.lt_or_le (r.cursor + (2 ^ k : Nat)) n with hlast | hle'
      · have hturn : n = r.cursor + 1 + (2 ^ k : Nat) := by omega
        exact absurd (by rw [hturn, h.index_add]) heq
      · exact hle'

theorem take_cons {uid : JLong} (h : r.Represents k (uid :: stock)) :
    ∃ r', r.take = (r', .ok uid) ∧ r'.Represents k stock ∧ r'.cursor = r.cursor + 1 := by
  have htail := h.tail_eq
  rw [List.length_cons] at htail
  obtain ⟨hslot, hflag⟩ := h.contents 0 uid rfl
  rw [show r.cursor + 1 + ((0 : Nat) : Int) = r.cursor + 1 by omega] at hslot hflag
  simp only [take, updateAndGet, if_neg (show ¬ r.cursor = r.tail by omega)]
  rw [if_neg (show ¬ ¬ r.cursor + 1 ≥ r.cursor by omega),
    if_neg (show ¬ r.cursor + 1 = r.cursor by omega)]
  simp only [calSlotIndex_triggerPadding, flags_triggerPadding, slots_triggerPadding,
    calSlotIndex_update]
  rw [if_neg (not_not.mpr hflag), hslot]
  refine ⟨_, rfl, ?_, cursor_triggerPadding _ _ _⟩
  unfold RingBuffer.triggerPadding
  split
  · exact h.tail_stock _
  · exact h.tail_stock _

end RingBuffer

end BigPlan.Uid
