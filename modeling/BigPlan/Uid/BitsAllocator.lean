import BigPlan.Lib.BitFields
import BigPlan.Lib.Java

/-!
# Bit layout of a uid

`BitsAllocator` splits a long into sign, delta seconds, worker id and sequence.
The constructor only compares an int sum with 64, and every shift takes its
distance modulo 64. `Fits` is the condition under which the three fields fill the
63 bits under the sign, `WellFormed` what the constructor then computes.
-/
namespace BigPlan.Uid

open Lib.Java Lib.BitFields

/-- The exceptions thrown in this package, with their messages. -/
inductive UidError where
  | illegalArgument (message : String)
  | runtime (message : String)
  | uidGenerate (message : String)
  deriving DecidableEq, Repr

structure BitsAllocator where
  signBits : JInt
  timestampBits : JInt
  workerIdBits : JInt
  sequenceBits : JInt
  maxDeltaSeconds : JLong
  maxWorkerId : JLong
  maxSequence : JLong
  timestampShift : JInt
  workerIdShift : JInt
  deriving DecidableEq, Repr

namespace BitsAllocator

def TOTAL_BITS : JInt := 1 <<< 6

def new (timestampBits workerIdBits sequenceBits : JInt) : Except UidError BitsAllocator :=
  let signBits : JInt := 1
  -- the sum is an int, so it is compared with 64 after wrapping
  let allocateTotalBits := signBits + timestampBits + workerIdBits + sequenceBits
  if allocateTotalBits = TOTAL_BITS then
    .ok
      { signBits
        timestampBits
        workerIdBits
        sequenceBits
        maxDeltaSeconds := ~~~(shl (-1) timestampBits)
        maxWorkerId := ~~~(shl (-1) workerIdBits)
        maxSequence := ~~~(shl (-1) sequenceBits)
        timestampShift := workerIdBits + sequenceBits
        workerIdShift := sequenceBits }
  else .error (.illegalArgument "allocate not enough 64 bits")

def allocate (b : BitsAllocator) (deltaSeconds workerId sequence : JLong) : JLong :=
  shl deltaSeconds b.timestampShift ||| shl workerId b.workerIdShift ||| sequence

end BitsAllocator

/-- Three positive widths which, with the sign, add up to 64 without wrapping. -/
structure ValidLayout (timestampBits workerIdBits sequenceBits : JInt) : Prop where
  time_pos : 0 < timestampBits.toInt
  worker_pos : 0 < workerIdBits.toInt
  seq_pos : 0 < sequenceBits.toInt
  total : 1 + timestampBits.toInt + workerIdBits.toInt + sequenceBits.toInt = 64

/-- The widths that the shifts see fill the 63 bits under the sign. -/
structure Fits (timestampBits workerIdBits sequenceBits : JInt) : Prop where
  worker_pos : 0 < workerIdBits.toNat % 64
  seq_pos : 0 < sequenceBits.toNat % 64
  total : timestampBits.toNat % 64 + workerIdBits.toNat % 64 + sequenceBits.toNat % 64 = 63

/-- Positive widths are the same as naturals, and their sum is not wrapped. -/
theorem ValidLayout.toNat_total {t w s : JInt} (h : ValidLayout t w s) :
    0 < w.toNat ∧ 0 < s.toNat ∧ t.toNat + w.toNat + s.toNat = 63 := by
  have ht := toNat_eq_toInt (Int.le_of_lt h.time_pos)
  have hw := toNat_eq_toInt (Int.le_of_lt h.worker_pos)
  have hs := toNat_eq_toInt (Int.le_of_lt h.seq_pos)
  have hw0 := h.worker_pos
  have hs0 := h.seq_pos
  have htotal := h.total
  omega

theorem ValidLayout.lt {t w s : JInt} (h : ValidLayout t w s) :
    t.toNat < 64 ∧ w.toNat < 64 ∧ s.toNat < 64 := by
  obtain ⟨-, -, htotal⟩ := h.toNat_total
  omega

theorem ValidLayout.fits {t w s : JInt} (h : ValidLayout t w s) : Fits t w s := by
  obtain ⟨hworker, hseq, htotal⟩ := h.toNat_total
  constructor <;> omega

namespace BitsAllocator

def timeWidth (b : BitsAllocator) : Nat := b.timestampBits.toNat % 64
def workerWidth (b : BitsAllocator) : Nat := b.workerIdBits.toNat % 64
def seqWidth (b : BitsAllocator) : Nat := b.sequenceBits.toNat % 64

/-- What the constructor computes, in natural numbers. -/
structure Constructed (b : BitsAllocator) : Prop where
  sign : b.signBits = 1
  maxDelta : b.maxDeltaSeconds.toNat = 2 ^ b.timeWidth - 1
  maxWorker : b.maxWorkerId.toNat = 2 ^ b.workerWidth - 1
  maxSeq : b.maxSequence.toNat = 2 ^ b.seqWidth - 1
  timeShift : b.timestampShift.toNat % 64 = (b.workerWidth + b.seqWidth) % 64
  workerShift : b.workerIdShift.toNat % 64 = b.seqWidth

/-- A constructed allocator whose fields fill the word. -/
structure WellFormed (b : BitsAllocator) : Prop extends Constructed b where
  worker_pos : 0 < b.workerWidth
  seq_pos : 0 < b.seqWidth
  total : b.timeWidth + b.workerWidth + b.seqWidth = 63

theorem new_constructed {t w s : JInt} {b : BitsAllocator} (hb : new t w s = .ok b) :
    b.Constructed ∧ b.timestampBits = t ∧ b.workerIdBits = w ∧ b.sequenceBits = s := by
  simp only [new] at hb
  split at hb
  · cases hb
    refine ⟨⟨rfl, toNat_lowMask t, toNat_lowMask w, toNat_lowMask s, ?_, rfl⟩, rfl, rfl, rfl⟩
    show (w + s).toNat % 64 = (w.toNat % 64 + s.toNat % 64) % 64
    rw [BitVec.toNat_add]
    omega
  · cases hb

theorem new_of_validLayout {t w s : JInt} (h : ValidLayout t w s) : ∃ b, new t w s = .ok b := by
  obtain ⟨ht, hw, hs, htot⟩ := h
  have hsum : (1 : JInt) + t + w + s = TOTAL_BITS := by
    apply BitVec.eq_of_toNat_eq
    have h64 : TOTAL_BITS.toNat = 64 := by decide
    have h1 : (1 : JInt).toNat = 1 := by decide
    have := t.isLt
    have := w.isLt
    have := s.isLt
    rw [BitVec.toInt_eq_toNat_cond] at ht hw hs
    simp only [BitVec.toInt_eq_toNat_cond] at htot
    rw [h64, BitVec.toNat_add, BitVec.toNat_add, BitVec.toNat_add, h1]
    split at ht <;> split at hw <;> split at hs <;> simp_all only [↓reduceIte]
    all_goals omega
  simp only [new, hsum, if_true]
  exact ⟨_, rfl⟩

/-- The check leaves two possible totals for the widths that the shifts see. -/
theorem new_total {t w s : JInt} {b : BitsAllocator} (hb : new t w s = .ok b) :
    b.timeWidth + b.workerWidth + b.seqWidth = 63 ∨
      b.timeWidth + b.workerWidth + b.seqWidth = 127 := by
  simp only [new] at hb
  split at hb
  · rename_i hsum
    cases hb
    have h64 : TOTAL_BITS.toNat = 64 := by decide
    have h1 : (1 : JInt).toNat = 1 := by decide
    have hn := congrArg BitVec.toNat hsum
    rw [h64, BitVec.toNat_add, BitVec.toNat_add, BitVec.toNat_add, h1] at hn
    simp only [timeWidth, workerWidth, seqWidth]
    omega
  · cases hb

theorem new_wellFormed {t w s : JInt} {b : BitsAllocator} (hf : Fits t w s)
    (hb : new t w s = .ok b) : b.WellFormed := by
  obtain ⟨hc, rfl, rfl, rfl⟩ := new_constructed hb
  exact ⟨hc, hf.worker_pos, hf.seq_pos, hf.total⟩

variable {b : BitsAllocator}

/-- For worker ids and sequences within their fields, the packed word holds the
delta seconds modulo one bit more than the time field: the extra bit is the sign. -/
theorem toNat_allocate (hb : b.WellFormed) (d : JLong) {k q : JLong}
    (hk : k.toNat < 2 ^ b.workerWidth) (hq : q.toNat < 2 ^ b.seqWidth) :
    (b.allocate d k q).toNat =
      join (b.workerWidth + b.seqWidth) (d.toNat % 2 ^ (b.timeWidth + 1))
        (join b.seqWidth k.toNat q.toNat) := by
  have htot := hb.total
  have hlow : (shl k b.workerIdShift ||| q).toNat = join b.seqWidth k.toNat q.toNat := by
    rw [shl, hb.workerShift, toNat_shiftLeft_or (by omega) k q hq,
      Nat.mod_eq_of_lt (hk.trans_le (Nat.pow_le_pow_right (by decide) (by omega)))]
  have hlow' : (shl k b.workerIdShift ||| q).toNat < 2 ^ (b.workerWidth + b.seqWidth) := by
    rw [hlow]
    exact join_lt hk hq
  rw [allocate, BitVec.or_assoc, shl, hb.timeShift, Nat.mod_eq_of_lt (by omega),
    toNat_shiftLeft_or (by omega) d _ hlow', hlow,
    show 64 - (b.workerWidth + b.seqWidth) = b.timeWidth + 1 by omega]

theorem two_pow_timeWidth_lt (hb : b.WellFormed) : 2 ^ b.timeWidth < 2 ^ 62 :=
  Nat.pow_lt_pow_right (by decide) (by have := hb.total; have := hb.worker_pos; have := hb.seq_pos; omega)

theorem toInt_maxDelta (hb : b.WellFormed) :
    b.maxDeltaSeconds.toInt = 2 ^ b.timeWidth - 1 := by
  have h := two_pow_timeWidth_lt hb
  have hp := Nat.two_pow_pos b.timeWidth
  rw [toInt_of_lt (by rw [hb.maxDelta]; omega), hb.maxDelta]
  push_cast [hp]
  rfl

theorem two_pow_workerWidth_lt (hb : b.WellFormed) : 2 ^ b.workerWidth < 2 ^ 63 :=
  Nat.pow_lt_pow_right (by decide) (by have := hb.total; have := hb.seq_pos; omega)

/-- A value between zero and a mask fits the field of the mask. -/
theorem fits_of_le_mask {x mask : JLong} {n : Nat} (hn : n < 63) (hm : mask.toNat = 2 ^ n - 1)
    (h0 : 0 ≤ x.toInt) (hx : x.toInt ≤ mask.toInt) : x.toNat < 2 ^ n := by
  have h := Nat.pow_lt_pow_right (show 1 < 2 by decide) hn
  have hp := Nat.two_pow_pos n
  have hint : mask.toInt = mask.toNat := toInt_of_lt (by rw [hm]; omega)
  have hx' := toNat_eq_toInt h0
  rw [hint, hm] at hx
  omega

theorem worker_fits (hb : b.WellFormed) {k : JLong} (h0 : 0 ≤ k.toInt)
    (hk : k.toInt ≤ b.maxWorkerId.toInt) : k.toNat < 2 ^ b.workerWidth :=
  fits_of_le_mask (by have := hb.total; have := hb.seq_pos; omega) hb.maxWorker h0 hk

theorem seq_fits (hb : b.WellFormed) {q : JLong} (h0 : 0 ≤ q.toInt)
    (hq : q.toInt ≤ b.maxSequence.toInt) : q.toNat < 2 ^ b.seqWidth :=
  fits_of_le_mask (by have := hb.total; have := hb.worker_pos; omega) hb.maxSeq h0 hq

theorem two_pow_fields (hb : b.WellFormed) :
    2 ^ b.timeWidth * 2 ^ (b.workerWidth + b.seqWidth) = 2 ^ 63 := by
  have htot := hb.total
  have h : b.timeWidth + (b.workerWidth + b.seqWidth) = 63 := by omega
  exact (Nat.pow_add _ _ _).symm.trans (congrArg (2 ^ ·) h)

/-- What is left of the delta seconds in the time field and the sign bit. -/
theorem toNat_mod_of_window {d : JLong} {n : Nat} (hn : n < 63) (hlo : -((2 ^ n : Nat) : Int) ≤ d.toInt)
    (hhi : d.toInt < (2 ^ n : Nat)) :
    ((d.toNat % 2 ^ (n + 1) : Nat) : Int) =
      if 0 ≤ d.toInt then d.toInt else d.toInt + 2 * (2 ^ n : Nat) := by
  have hdvd : 2 ^ (n + 1) ∣ 2 ^ 64 := Nat.pow_dvd_pow 2 (by omega)
  rw [Nat.pow_succ] at hdvd ⊢
  generalize 2 ^ n = P at *
  have hd := BitVec.toInt_eq_toNat_cond d
  have hlt := d.isLt
  split
  · rename_i h0
    have := toNat_eq_toInt h0
    rw [Nat.mod_eq_of_lt (by omega)]
    exact this
  · obtain ⟨c, hc⟩ := hdvd
    have hneg : (d.toNat : Int) = d.toInt + (2 ^ 64 : Nat) := by
      split at hd <;> omega
    rw [hc] at hneg
    have hmod : (d.toNat : Int) % (P * 2 : Nat) = (d.toInt + (P * 2 : Nat)) % (P * 2 : Nat) := by
      rw [hneg, Int.natCast_mul (P * 2), Int.add_mul_emod_self_left, Int.add_emod_right]
    rw [Int.natCast_mod, hmod, Int.emod_eq_of_lt (by omega) (by omega)]
    omega

/-- As a signed number the packed word orders delta seconds first, down to the
negative ones that the time field and the sign can hold. -/
theorem toInt_allocate (hb : b.WellFormed) {d k q : JLong}
    (hlo : -((2 ^ b.timeWidth : Nat) : Int) ≤ d.toInt) (hhi : d.toInt < (2 ^ b.timeWidth : Nat))
    (hk : k.toNat < 2 ^ b.workerWidth) (hq : q.toNat < 2 ^ b.seqWidth) :
    (b.allocate d k q).toInt =
      d.toInt * (2 ^ (b.workerWidth + b.seqWidth) : Nat) +
        (join b.seqWidth k.toNat q.toNat : Nat) := by
  have hlow := join_lt hk hq
  have hn := toNat_allocate hb d hk hq
  have hfull := two_pow_fields hb
  have hmod := toNat_mod_of_window (n := b.timeWidth)
    (by have := hb.total; have := hb.seq_pos; omega) hlo hhi
  rw [BitVec.toInt_eq_toNat_cond, hn, join]
  generalize join b.seqWidth k.toNat q.toNat = low at *
  generalize d.toNat % 2 ^ (b.timeWidth + 1) = D at *
  generalize 2 ^ (b.workerWidth + b.seqWidth) = N at *
  generalize 2 ^ b.timeWidth = P at *
  generalize d.toInt = e at *
  split at hmod
  · -- below the sign bit
    have hD : D < P := by omega
    have hm := Nat.mul_le_mul_right N (Nat.succ_le_of_lt hD)
    rw [Nat.succ_mul] at hm
    rw [if_pos (by omega), ← hmod]
    push_cast
    rfl
  · -- the sign bit is set, so the word stands for 2^64 less
    have hD : P ≤ D := by omega
    have hm := Nat.mul_le_mul_right N hD
    have he : e = (D : Int) - 2 * P := by omega
    rw [if_neg (by omega), he, Int.sub_mul, Int.mul_assoc, ← Int.natCast_mul P, hfull]
    push_cast
    omega

theorem allocate_lt_allocate (hb : b.WellFormed) {d d' k q q' : JLong}
    (hlo : -((2 ^ b.timeWidth : Nat) : Int) ≤ d.toInt) (hhi : d.toInt < (2 ^ b.timeWidth : Nat))
    (hlo' : -((2 ^ b.timeWidth : Nat) : Int) ≤ d'.toInt) (hhi' : d'.toInt < (2 ^ b.timeWidth : Nat))
    (hk : k.toNat < 2 ^ b.workerWidth) (hq : q.toNat < 2 ^ b.seqWidth)
    (hq' : q'.toNat < 2 ^ b.seqWidth) :
    (b.allocate d k q).toInt < (b.allocate d' k q').toInt ↔
      d.toInt < d'.toInt ∨ (d.toInt = d'.toInt ∧ q.toNat < q'.toNat) := by
  rw [toInt_allocate hb hlo hhi hk hq, toInt_allocate hb hlo' hhi' hk hq',
    int_join_lt_join _ _ (join_lt hk hq) (join_lt hk hq'), join_lt_join hq hq']
  simp

/-- Equal words agree in the sequence and in what the time field keeps of the seconds. -/
theorem allocate_inj (hb : b.WellFormed) {d d' k q q' : JLong} (hk : k.toNat < 2 ^ b.workerWidth)
    (hq : q.toNat < 2 ^ b.seqWidth) (hq' : q'.toNat < 2 ^ b.seqWidth)
    (h : b.allocate d k q = b.allocate d' k q') :
    d.toNat % 2 ^ (b.timeWidth + 1) = d'.toNat % 2 ^ (b.timeWidth + 1) ∧ q = q' := by
  have hn := congrArg BitVec.toNat h
  rw [toNat_allocate hb d hk hq, toNat_allocate hb d' hk hq',
    join_inj (join_lt hk hq) (join_lt hk hq'), join_inj hq hq'] at hn
  exact ⟨hn.1, BitVec.eq_of_toNat_eq hn.2.2⟩

end BitsAllocator

end BigPlan.Uid
