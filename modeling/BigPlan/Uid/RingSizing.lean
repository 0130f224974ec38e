import BigPlan.Uid.CachedUidGenerator

/-!
# The size of the ring

The size is an int: the mask of the sequences loses its upper half, the shift takes its distance
modulo 32, and the product with the padding factor wraps before it is divided. Only a size that
is no positive power of two is rejected.
-/
namespace BigPlan.Uid

open Lib.Java

variable {t w s boostPower paddingFactor : JInt} {g : DefaultUidGenerator}

/-! ## Padding leaves the size alone -/

/-- The two buffers differ in what they hold, not in their sizes. -/
def RingBuffer.SameSize (r r' : RingBuffer) : Prop :=
  r'.bufferSize = r.bufferSize ∧ r'.paddingThreshold = r.paddingThreshold

theorem RingBuffer.put_sameSize (r : RingBuffer) (uid : JLong) : r.SameSize (r.put uid).1 := by
  obtain hput | ⟨-, hput⟩ := r.put_cases uid
  · rw [hput]
    exact ⟨rfl, rfl⟩
  · rw [hput]
    exact ⟨rfl, rfl⟩

theorem RingBuffer.SameSize.trans {r₁ r₂ r₃ : RingBuffer} (h : r₁.SameSize r₂)
    (h' : r₂.SameSize r₃) : r₁.SameSize r₃ := ⟨h'.1.trans h.1, h'.2.trans h.2⟩

namespace BufferPaddingExecutor

theorem putAll_sameSize (uids : List JLong) (r : RingBuffer) :
    r.SameSize (putAll r uids).1 := by
  induction uids generalizing r with
  | nil => exact ⟨rfl, rfl⟩
  | cons uid uids ih =>
    have hput := r.put_sameSize uid
    unfold putAll
    split
    · rename_i r' heq
      rw [heq] at hput
      exact hput
    · rename_i r' heq
      rw [heq] at hput
      exact hput.trans (ih r')

theorem fill_sameSize {provide : JLong → List JLong} {fuel : Nat} {r r' : RingBuffer}
    {ex ex' : BufferPaddingExecutor} (h : fill provide fuel r ex = some (r', ex')) :
    r.SameSize r' := by
  induction fuel generalizing r ex with
  | zero => cases h
  | succ fuel ih =>
    have hput := putAll_sameSize (provide (ex.lastSecond + 1)) r
    simp only [fill] at h
    split at h
    · cases h
      exact hput
    · exact hput.trans (ih h)

end BufferPaddingExecutor

namespace CachedUidGenerator

/-! ## `initRingBuffer` -/

/-- `initRingBuffer` with any padding factor. -/
def initRingBufferWith (g : DefaultUidGenerator) (boostPower paddingFactor : JInt)
    (millis : JLong) : Option (Except UidError CachedUidGenerator) :=
  let bufferSize := listSize g.bitsAllocator <<< (boostPower.toNat % 32)
  match RingBuffer.new bufferSize paddingFactor with
  | .error e => some (.error e)
  | .ok ringBuffer =>
    let bufferPaddingExecutor : BufferPaddingExecutor :=
      { running := false, lastSecond := toSeconds millis, consumed := [], placed := [] }
    (paddingBuffer { g with ringBuffer, bufferPaddingExecutor }).map .ok

theorem initRingBuffer_eq (g : DefaultUidGenerator) (boostPower : JInt) (millis : JLong) :
    initRingBuffer g boostPower millis =
      initRingBufferWith g boostPower DEFAULT_PADDING_PERCENT millis := by
  simp only [initRingBuffer, initRingBufferWith, newRingBuffer]
  cases RingBuffer.new (listSize g.bitsAllocator <<< (boostPower.toNat % 32))
    DEFAULT_PADDING_PERCENT <;> rfl

/-- The first padding fills an empty ring if a second has uids at all. -/
theorem paddingBuffer_returns {c : CachedUidGenerator} {k : Nat}
    (h : c.ringBuffer.Represents k []) (hidle : c.bufferPaddingExecutor.running = false)
    (hsize : 0 < (listSize c.bitsAllocator).toInt.toNat) :
    ∃ c', c.paddingBuffer = some c' ∧ c.ringBuffer.SameSize c'.ringBuffer := by
  have hroom : c.ringBuffer.capacity ≤ c.ringBuffer.bufferSize.toNat := by
    unfold RingBuffer.capacity
    split
    · exact Nat.le_refl _
    · exact Nat.sub_le _ _
  have hprovide (second : JLong) : nextIdsForOneSecond c.toDefaultUidGenerator second =
      (List.range (listSize c.bitsAllocator).toInt.toNat).map fun offset =>
        c.bitsAllocator.allocate (second - c.epochSeconds) c.workerId 0 + BitVec.ofNat 64 offset :=
    rfl
  obtain ⟨r', hfill, -⟩ := BufferPaddingExecutor.fill_spec hsize hprovide
    (c.ringBuffer.bufferSize.toNat + 1) { c.bufferPaddingExecutor with running := true } h rfl
    (Nat.lt_succ_of_le ((Nat.div_le_self _ _).trans hroom))
  have hsame := BufferPaddingExecutor.fill_sameSize hfill
  simp only [paddingBuffer, hidle, Bool.false_eq_true, if_false, hfill]
  exact ⟨_, rfl, hsame⟩

/-! ## Sizes -/

/-- Dividing the wrapped product gives the quotient only if the product is an int. -/
theorem tdiv_wrap_iff {x : Int} (hx : 0 ≤ x) : (wrap x).tdiv 100 = x / 100 ↔ x < 2 ^ 31 := by
  constructor
  · intro h
    have hhi := Int.bmod_lt (x := x) (show 0 < 2 ^ 32 by decide)
    obtain ⟨q, hq⟩ := Int.dvd_bmod_sub_self (x := x) (m := 2 ^ 32)
    have hdiv := Int.mul_tdiv_add_tmod (wrap x) 100
    have hmod := Int.lt_tmod_of_pos (wrap x) (show (0 : Int) < 100 by decide)
    rw [h] at hdiv
    unfold wrap at hdiv hmod
    omega
  · intro h
    rw [wrap_of_int (by omega) h, Int.tdiv_eq_ediv_of_nonneg hx]

theorem paddingThreshold_new {bufferSize : JInt} {r : RingBuffer}
    (h : RingBuffer.new bufferSize paddingFactor = .ok r) :
    r.paddingThreshold = (bufferSize * paddingFactor).sdiv 100 := by
  unfold RingBuffer.new at h
  split at h
  · cases h
  split at h
  · cases h
  split at h
  · cases h
  cases h
  rfl

theorem toInt_sdiv_mul (x y : JInt) :
    ((x * y).sdiv 100).toInt = (wrap (x.toInt * y.toInt)).tdiv 100 := by
  have h100 : (100 : JInt).toInt = 100 := by decide
  have hlo := Int.le_bmod (x := x.toInt * y.toInt) (show 0 < 2 ^ 32 by decide)
  have hhi := Int.bmod_lt (x := x.toInt * y.toInt) (show 0 < 2 ^ 32 by decide)
  have hdiv := Int.mul_tdiv_add_tmod (wrap (x.toInt * y.toInt)) 100
  have hmod := Int.lt_tmod_of_pos (wrap (x.toInt * y.toInt)) (show (0 : Int) < 100 by decide)
  have hmod' := Int.tmod_lt_of_pos (wrap (x.toInt * y.toInt)) (show (0 : Int) < 100 by decide)
  rw [BitVec.toInt_sdiv, BitVec.toInt_mul, h100]
  unfold wrap at hdiv hmod hmod' ⊢
  exact Int.bmod_eq_of_le (by omega) (by omega)

/-- A second has as many uids as there are sequences, if their number is an int. -/
theorem toInt_listSize {b : BitsAllocator} (hc : b.Constructed) (hlt : b.seqWidth < 31) :
    (listSize b).toInt = 2 ^ b.seqWidth := by
  have hpow : 2 ^ b.seqWidth < 2 ^ 31 := Nat.pow_lt_pow_right (by decide) hlt
  have hsize := toNat_listSize hc
  rw [Nat.mod_eq_of_lt (by omega)] at hsize
  rw [BitVec.toInt_eq_toNat_cond, if_pos (by omega), hsize]
  exact Int.natCast_pow 2 _

theorem toNat_bufferSize {b : BitsAllocator} (hc : b.Constructed) (m : Nat) :
    (listSize b <<< m).toNat = 2 ^ (b.seqWidth + m) % 2 ^ 32 := by
  rw [BitVec.toNat_shiftLeft, toNat_listSize hc, Nat.shiftLeft_eq, Nat.mod_mul_mod, Nat.pow_add]

/-- The ring that a generator with a small enough shift makes. -/
theorem initRingBufferWith_ok (boostPower : JInt) (hc : g.bitsAllocator.Constructed)
    (hlt : g.bitsAllocator.seqWidth + boostPower.toNat % 32 < 31)
    (hfactor : 0 < paddingFactor.toInt ∧ paddingFactor.toInt < 100) (millis : JLong) :
    ∃ c, initRingBufferWith g boostPower paddingFactor millis = some (.ok c) ∧
      c.ringBuffer.bufferSize.toInt =
        2 ^ (g.bitsAllocator.seqWidth + boostPower.toNat % 32) ∧
      c.ringBuffer.paddingThreshold.toInt =
        (wrap (c.ringBuffer.bufferSize.toInt * paddingFactor.toInt)).tdiv 100 := by
  have hpow : 2 ^ (g.bitsAllocator.seqWidth + boostPower.toNat % 32) < 2 ^ 31 :=
    Nat.pow_lt_pow_right (by decide) hlt
  have hsize := toNat_bufferSize hc (boostPower.toNat % 32)
  rw [Nat.mod_eq_of_lt (hpow.trans (by decide))] at hsize
  obtain ⟨r, hr⟩ := RingBuffer.new_total hlt hsize hfactor
  obtain ⟨k, hk⟩ := RingBuffer.new_represents hr
  obtain ⟨-, hbufferSize, -⟩ := RingBuffer.new_eq hr
  have hpos : 0 < (listSize g.bitsAllocator).toInt.toNat := by
    rw [toInt_listSize hc (by omega)]
    exact Int.pos_iff_toNat_pos.mp (Int.pow_pos (by decide))
  let ex : BufferPaddingExecutor :=
    { running := false, lastSecond := toSeconds millis, consumed := [], placed := [] }
  obtain ⟨c, hc', hsame⟩ := paddingBuffer_returns (c := ⟨g, r, ex⟩) hk rfl hpos
  refine ⟨c, ?_, ?_, ?_⟩
  · simp only [initRingBufferWith, hr]
    exact congrArg (Option.map Except.ok) hc'
  · rw [hsame.1, hbufferSize, BitVec.toInt_eq_toNat_cond, if_pos (by omega), hsize]
    exact Int.natCast_pow 2 _
  · rw [hsame.2, hsame.1, paddingThreshold_new hr, hbufferSize]
    exact toInt_sdiv_mul _ _

theorem initRingBufferWith_error (boostPower paddingFactor : JInt)
    (hc : g.bitsAllocator.Constructed) (hge : 31 ≤ g.bitsAllocator.seqWidth + boostPower.toNat % 32)
    (millis : JLong) :
    ∃ e, initRingBufferWith g boostPower paddingFactor millis = some (.error e) := by
  cases hr : RingBuffer.new (listSize g.bitsAllocator <<< (boostPower.toNat % 32))
      paddingFactor with
  | error e => exact ⟨e, by simp only [initRingBufferWith, hr]⟩
  | ok r => exact absurd (size_of_new hc hr).lt (by omega)

/-! ## The sizes that are meant -/

/-- The initialization fails or makes a ring of the size and the threshold that are meant. -/
def RingSized (g : DefaultUidGenerator) (boostPower paddingFactor : JInt) (millis : JLong) : Prop :=
  ∃ result, initRingBufferWith g boostPower paddingFactor millis = some result ∧
    ∀ c, result = .ok c →
      c.ringBuffer.bufferSize.toInt =
        (g.bitsAllocator.maxSequence.toInt + 1) * 2 ^ boostPower.toNat ∧
      c.ringBuffer.paddingThreshold.toInt =
        c.ringBuffer.bufferSize.toInt * paddingFactor.toInt / 100

/-- A second has a uid for every sequence. -/
def SecondFull (g : DefaultUidGenerator) (currentSecond : JLong) : Prop :=
  ((nextIdsForOneSecond g currentSecond).length : Int) = g.bitsAllocator.maxSequence.toInt + 1

theorem toInt_maxSequence {b : BitsAllocator} (hc : b.Constructed) (hle : b.seqWidth ≤ 61) :
    b.maxSequence.toInt + 1 = 2 ^ b.seqWidth := by
  have hpow : 2 ^ b.seqWidth ≤ 2 ^ 61 := Nat.pow_le_pow_right (by decide) hle
  have hpos := Nat.two_pow_pos b.seqWidth
  rw [toInt_of_lt (by rw [hc.maxSeq]; omega), hc.maxSeq, ← Int.natCast_succ,
    Nat.succ_eq_add_one, Nat.sub_add_cancel hpos]
  exact Int.natCast_pow 2 _

theorem ringSized_iff (hc : g.bitsAllocator.Constructed) (hle : g.bitsAllocator.seqWidth ≤ 61)
    (hfactor : 0 < paddingFactor.toInt ∧ paddingFactor.toInt < 100) (millis : JLong) :
    RingSized g boostPower paddingFactor millis ↔
      31 ≤ g.bitsAllocator.seqWidth + boostPower.toNat % 32 ∨ boostPower.toNat < 32 ∧
        2 ^ (g.bitsAllocator.seqWidth + boostPower.toNat) * paddingFactor.toInt < 2 ^ 31 := by
  rcases Nat.lt_or_ge (g.bitsAllocator.seqWidth + boostPower.toNat % 32) 31 with hlt | hge
  · obtain ⟨c, hok, hsize, hthreshold⟩ :=
      initRingBufferWith_ok boostPower hc hlt hfactor millis
    have hproduct : 0 ≤ (2 : Int) ^ (g.bitsAllocator.seqWidth + boostPower.toNat % 32) *
        paddingFactor.toInt :=
      Int.mul_nonneg (Int.pow_nonneg (by decide)) (by omega)
    have hsized : RingSized g boostPower paddingFactor millis ↔
        c.ringBuffer.bufferSize.toInt =
          (g.bitsAllocator.maxSequence.toInt + 1) * 2 ^ boostPower.toNat ∧
        c.ringBuffer.paddingThreshold.toInt =
          c.ringBuffer.bufferSize.toInt * paddingFactor.toInt / 100 := by
      simp [RingSized, hok]
    rw [hsized, hthreshold, hsize, tdiv_wrap_iff hproduct, toInt_maxSequence hc hle, ← Int.pow_add]
    have hexponent : (2 : Int) ^ (g.bitsAllocator.seqWidth + boostPower.toNat % 32) =
        2 ^ (g.bitsAllocator.seqWidth + boostPower.toNat) ↔ boostPower.toNat < 32 := by
      constructor
      · intro heq
        have hnat := Nat.pow_right_injective (le_refl 2) (Int.natCast_inj.mp heq)
        omega
      · intro hlt32
        rw [Nat.mod_eq_of_lt hlt32]
    rw [hexponent]
    constructor
    · intro hboth
      rw [Nat.mod_eq_of_lt hboth.1] at hboth
      exact Or.inr hboth
    · intro hcond
      have hboth := hcond.resolve_left (by omega)
      rw [Nat.mod_eq_of_lt hboth.1]
      exact hboth
  · obtain ⟨e, he⟩ := initRingBufferWith_error boostPower paddingFactor hc hge millis
    refine iff_of_true ⟨_, he, fun c hc' => ?_⟩ (Or.inl hge)
    cases hc'

theorem secondFull_iff (hc : g.bitsAllocator.Constructed) (hle : g.bitsAllocator.seqWidth ≤ 61)
    (currentSecond : JLong) : SecondFull g currentSecond ↔ g.bitsAllocator.seqWidth ≤ 30 := by
  have hlength : (nextIdsForOneSecond g currentSecond).length =
      (listSize g.bitsAllocator).toInt.toNat := by
    rw [nextIdsForOneSecond, List.length_map, List.length_range]
  have hpos : (0 : Int) < 2 ^ g.bitsAllocator.seqWidth := Int.pow_pos (by decide)
  rw [SecondFull, hlength, toInt_maxSequence hc hle]
  rcases Nat.lt_or_ge g.bitsAllocator.seqWidth 31 with hlt | hge
  · rw [toInt_listSize hc hlt, Int.toNat_of_nonneg (Int.le_of_lt hpos)]
    exact iff_of_true rfl (by omega)
  · -- the number of sequences is no int: the size is the least int, or zero
    have hsize := toNat_listSize hc
    have hnonpos : (listSize g.bitsAllocator).toInt ≤ 0 := by
      rw [BitVec.toInt_eq_toNat_cond, hsize]
      rcases Nat.eq_or_lt_of_le hge with heq | hgt
      · rw [← heq]
        decide
      · rw [Nat.mod_eq_zero_of_dvd (Nat.pow_dvd_pow 2 hgt)]
        decide
    rw [Int.toNat_of_nonpos hnonpos]
    exact iff_of_false (by omega) (by omega)

/-- Ring and seconds have the sizes that are meant if and only if the sequences are few enough, and
either no size is left after the shift or nothing is lost by it and by the product. -/
theorem sized_iff (t w s boostPower paddingFactor : JInt) (g : DefaultUidGenerator)
    (millis currentSecond : JLong) (hb : BitsAllocator.new t w s = .ok g.bitsAllocator)
    (hs : 1 ≤ s.toInt ∧ s.toInt ≤ 61)
    (hfactor : 0 < paddingFactor.toInt ∧ paddingFactor.toInt < 100) :
    RingSized g boostPower paddingFactor millis ∧ SecondFull g currentSecond ↔
      s.toNat ≤ 30 ∧ (31 ≤ s.toNat + boostPower.toNat % 32 ∨ boostPower.toNat < 32 ∧
        2 ^ (s.toNat + boostPower.toNat) * paddingFactor.toInt < 2 ^ 31) := by
  obtain ⟨hc, -, -, hbits⟩ := BitsAllocator.new_constructed hb
  have hwidth : g.bitsAllocator.seqWidth = s.toNat := by
    have hnat := toNat_eq_toInt (x := s) (by omega)
    rw [BitsAllocator.seqWidth, hbits, Nat.mod_eq_of_lt (by omega)]
  have hle : g.bitsAllocator.seqWidth ≤ 61 := by
    have hnat := toNat_eq_toInt (x := s) (by omega)
    omega
  rw [ringSized_iff hc hle hfactor, secondFull_iff hc hle, hwidth]
  exact And.comm

/-- A generator with the given widths for its sequences and its times. -/
def withBits (timestampBits sequenceBits : JInt) : DefaultUidGenerator where
  bitsAllocator :=
    { signBits := 1, timestampBits, workerIdBits := 22, sequenceBits
      maxDeltaSeconds := ~~~(shl (-1) timestampBits), maxWorkerId := ~~~(shl (-1) (22 : JInt))
      maxSequence := ~~~(shl (-1) sequenceBits), timestampShift := 22 + sequenceBits
      workerIdShift := sequenceBits }
  epochSeconds := 0
  workerId := 1
  sequence := 0
  lastSecond := 0

theorem sized_iff_default :
    RingSized (withBits 28 13) 3 50 0 ∧ SecondFull (withBits 28 13) 1 ↔
      (13 : JInt).toNat ≤ 30 ∧ (31 ≤ (13 : JInt).toNat + (3 : JInt).toNat % 32 ∨
        (3 : JInt).toNat < 32 ∧
          2 ^ ((13 : JInt).toNat + (3 : JInt).toNat) * (50 : JInt).toInt < 2 ^ 31) :=
  sized_iff 28 22 13 3 50 (withBits 28 13) 0 1 (by decide) (by decide) (by decide)

/-- A shift by 33 is one by 1. -/
theorem not_sized : ¬ ∀ (t w s boostPower paddingFactor : JInt) (g : DefaultUidGenerator)
    (millis currentSecond : JLong), BitsAllocator.new t w s = .ok g.bitsAllocator →
    1 ≤ s.toInt ∧ s.toInt ≤ 61 → 0 < boostPower.toInt →
    0 < paddingFactor.toInt ∧ paddingFactor.toInt < 100 →
      RingSized g boostPower paddingFactor millis ∧ SecondFull g currentSecond := by
  intro h
  have hnew : BitsAllocator.new 31 22 10 = .ok (withBits 31 10).bitsAllocator := by decide
  obtain ⟨hsized, -⟩ :=
    h 31 22 10 33 50 (withBits 31 10) 0 1 hnew (by decide) (by decide) (by decide)
  have hcond := (ringSized_iff (BitsAllocator.new_constructed hnew).1 (by decide) (by decide) 0).mp
    hsized
  revert hcond
  decide

end CachedUidGenerator

end BigPlan.Uid
