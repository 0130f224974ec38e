import BigPlan.Uid.CachedOrder
import BigPlan.Uid.FieldRoundTrip

/-!
# The end of the time field

`getCurrentSecond` refuses a second whose distance from the epoch exceeds
`maxDeltaSeconds`, but a padding never calls it. Past that second, and before the
epoch, the placed uids lose their time field or their sign.
-/
namespace BigPlan.Uid

open Lib.Java Lib.BitFields Lib.Runs Lib.Blocks

/-- The second is not before the epoch, and `getCurrentSecond` would not refuse it. -/
def DefaultUidGenerator.FitsTimeField (g : DefaultUidGenerator) (second : JLong) : Prop :=
  0 ≤ (second - g.epochSeconds).toInt ∧
    (second - g.epochSeconds).toInt ≤ g.bitsAllocator.maxDeltaSeconds.toInt

instance (g : DefaultUidGenerator) (second : JLong) : Decidable (g.FitsTimeField second) :=
  inferInstanceAs (Decidable (_ ∧ _))

/-- A placed uid is not negative, and its time field holds its second. -/
def DefaultUidGenerator.KeepsSecond (g : DefaultUidGenerator) (p : JLong × JLong) : Prop :=
  0 ≤ p.2.toInt ∧ (g.parseUID p.2).deltaSeconds = p.1 - g.epochSeconds

namespace DefaultUidGenerator

variable {g : DefaultUidGenerator}

theorem fitsTimeField_iff (hb : g.bitsAllocator.WellFormed) (second : JLong) :
    g.FitsTimeField second ↔
      (second - g.epochSeconds).toNat < 2 ^ g.bitsAllocator.timeWidth := by
  have hT := BitsAllocator.two_pow_timeWidth_lt hb
  have hcast : ((2 ^ g.bitsAllocator.timeWidth : Nat) : Int) = 2 ^ g.bitsAllocator.timeWidth := by
    norm_cast
  rw [FitsTimeField, BitsAllocator.toInt_maxDelta hb, toInt_nonneg_iff, ← hcast]
  constructor
  · rintro ⟨h0, h⟩
    rw [toInt_of_lt h0] at h
    omega
  · intro h
    rw [toInt_of_lt (by omega)]
    omega

/-- Both promises hold of a uid exactly when its second fits. -/
theorem keepsSecond_uidAt (hb : g.bitsAllocator.WellFormed)
    (hw : g.workerId.toNat < 2 ^ g.bitsAllocator.workerWidth) (second : JLong) {k : Nat}
    (hk : k < 2 ^ g.bitsAllocator.seqWidth) :
    g.KeepsSecond (second, g.uidAt second k) ↔ g.FitsTimeField second := by
  have hoff := CachedUidGenerator.toNat_offset hb hk
  have hlow := join_lt hw hk
  have hfull := BitsAllocator.two_pow_fields hb
  have hdelta := (parseUID_fields hb (g.uidAt second k)).2.2
  have huid : (g.uidAt second k).toNat = _ :=
    BitsAllocator.toNat_allocate hb _ hw (by rw [hoff]; exact hk)
  rw [hoff] at huid
  rw [huid, join_div hlow] at hdelta
  rw [fitsTimeField_iff hb, KeepsSecond, toInt_nonneg_iff, huid, ← BitVec.toNat_inj, hdelta]
  have hpow : 2 ^ (g.bitsAllocator.timeWidth + 1) = 2 ^ g.bitsAllocator.timeWidth * 2 :=
    Nat.pow_succ ..
  rw [← hfull, join]
  constructor
  · rintro ⟨hpos, hmod⟩
    rw [hmod] at hpos
    exact Nat.lt_of_mul_lt_mul_right (Nat.lt_of_le_of_lt (Nat.le_add_right _ _) hpos)
  · intro hlt
    rw [Nat.mod_eq_of_lt (by omega)]
    have hm := Nat.mul_le_mul_right (2 ^ (g.bitsAllocator.workerWidth + g.bitsAllocator.seqWidth))
      (Nat.succ_le_of_lt hlt)
    rw [Nat.succ_mul] at hm
    exact ⟨by omega, rfl⟩

end DefaultUidGenerator

namespace Life

/-- Every uid that was placed in the ring keeps its second. -/
def KeepsSeconds : Option Life → Prop
  | none => False
  | some l => ∀ q ∈ l.executor.placed, l.generator.KeepsSecond q

/-- Every second from which the next padding fills a place fits the time field. -/
def FillsFitting : Option Life → Call → Prop
  | some l, .paddingBuffer => ∀ i < l.generator.room,
      l.generator.FitsTimeField
        (secondAfter l.executor.lastSecond (i / 2 ^ l.generator.bitsAllocator.seqWidth))
  | _, _ => True

instance : (o : Option Life) → (c : Call) → Decidable (FillsFitting o c)
  | some l, .paddingBuffer => inferInstanceAs (Decidable (∀ i < l.generator.room, _))
  | some _, .getUID => isTrue trivial
  | none, _ => isTrue trivial

theorem keepsSecond_filled {g : CachedUidGenerator} {k : Nat} {stock : List JLong}
    (hw : g.Working k stock) :
    (∀ q ∈ g.filled, g.KeepsSecond q) ↔ ∀ i < g.room, g.FitsTimeField
      (secondAfter g.bufferPaddingExecutor.lastSecond (i / 2 ^ g.bitsAllocator.seqWidth)) := by
  have hM := Nat.two_pow_pos g.bitsAllocator.seqWidth
  simp only [CachedUidGenerator.filled, blocks, List.map_map, List.mem_map, List.mem_range,
    Function.comp_apply, forall_exists_index, and_imp, forall_apply_eq_imp_iff₂]
  exact forall₂_congr fun i _ => DefaultUidGenerator.keepsSecond_uidAt hw.layout hw.worker _
    (Nat.mod_lt i hM)

/-- In every run the placed uids keep their seconds as long as every padding fills its
places from seconds that fit, and the first other padding ends it. -/
theorem keepsSeconds_iff (p : CachedProperties) (workerId millis : JLong) {g : CachedUidGenerator}
    (hl : ValidLayout p.timeBits p.workerBits p.seqBits)
    (hw : 0 ≤ workerId.toInt) (hg : CachedUidGenerator.create p workerId millis = .ok g)
    (calls : List Call) :
    Throughout call KeepsSeconds (some (begin g)) (.paddingBuffer :: calls) ↔
      Along call FillsFitting (some (begin g)) (.paddingBuffer :: calls) := by
  have hblank := blank_of_create hl.fits hw hg
  refine throughout_iff_along
    (fun _ o => ∃ l, o = some l ∧ l.Consistent ∧ KeepsSeconds (some l)) ?_ ?_ ?_
    ⟨_, rfl, consistent_of_blank hblank, ?_⟩
  · rintro o _ ⟨l, rfl, _, hk⟩
    exact hk
  · rintro o c _ ⟨l, rfl, hc, hk⟩ hfit
    obtain ⟨l', hcall, hc', hgen, hcases⟩ := call_cases hc c
    refine ⟨l', hcall, hc', ?_⟩
    rcases hcases with ⟨_, hex⟩ | ⟨rfl, _, hex⟩
    · intro q hq
      rw [hgen]
      exact hk q (hex ▸ hq)
    · obtain ⟨k, stock, hwork, _⟩ := hc
      intro q hq
      rw [hex] at hq
      rw [hgen]
      rcases List.mem_append.mp hq with hq | hq
      · exact hk q hq
      · exact (keepsSecond_filled hwork).mpr hfit q hq
  · rintro o c _ ⟨l, rfl, hc, _⟩ hfit hk
    obtain ⟨l', hcall, _, hgen, hcases⟩ := call_cases hc c
    rw [hcall] at hk
    rcases hcases with ⟨rfl, _⟩ | ⟨rfl, _, hex⟩
    · exact hfit trivial
    · obtain ⟨k, stock, hwork, _⟩ := hc
      refine hfit ((keepsSecond_filled hwork).mp fun q hq => ?_)
      rw [← hgen]
      refine hk q ?_
      rw [hex]
      exact List.mem_append_right _ hq
  · intro q hq
    rw [show (begin g).executor = _ from hblank.executor] at hq
    cases hq

/-- A time field of 28 bits with the default epoch. -/
def shortProperties : CachedProperties :=
  { timeBits := 28, workerBits := 33, seqBits := 2, boostPower := 1 }

theorem shortProperties_valid : ValidLayout shortProperties.timeBits shortProperties.workerBits
    shortProperties.seqBits := ⟨by decide, by decide, by decide, by decide⟩

/-- What these properties and worker id 0 create at a second of the clock. -/
def shortGenerator (second : JLong) : CachedUidGenerator where
  bitsAllocator := ⟨1, 28, 33, 2, 0xFFFFFFF, 0x1FFFFFFFF, 3, 35, 2⟩
  epochSeconds := 1463673600
  workerId := 0
  sequence := 0
  lastSecond := -1
  ringBuffer := ⟨8, 7, fun _ => 0, fun _ => CAN_PUT_FLAG, START_POINT, START_POINT, 4, 0⟩
  bufferPaddingExecutor := ⟨false, second, [], []⟩

/-- Well inside the time field. -/
theorem keepsSeconds_short : Throughout call KeepsSeconds (some (begin (shortGenerator 1600000000)))
    [.paddingBuffer, .getUID, .getUID, .paddingBuffer] :=
  (keepsSeconds_iff shortProperties 0 1600000000000 shortProperties_valid (by decide) rfl
    [.getUID, .getUID, .paddingBuffer]).mpr (by decide +kernel)

/-- A start in the last second of the time field fills the ring from the next ones,
and the first uid placed is negative. -/
theorem keepsSeconds_fails :
    ¬ ∀ (p : CachedProperties) (workerId millis : JLong) (g : CachedUidGenerator)
      (calls : List Call), ValidLayout p.timeBits p.workerBits p.seqBits → 0 ≤ workerId.toInt →
      workerId.toInt < (2 ^ p.workerBits.toNat : Nat) →
      CachedUidGenerator.create p workerId millis = .ok g →
      Throughout call KeepsSeconds (some (begin g)) (.paddingBuffer :: calls) := by
  intro h
  have hlast := (h shortProperties 0 1732109055000 (shortGenerator 1732109055) []
    shortProperties_valid (by decide) (by decide) rfl).last
  have hplaced : (run call (some (begin (shortGenerator 1732109055))) [.paddingBuffer]).map
      (fun l => l.executor.placed.head?) = some (some (1732109056, 2 ^ 63)) := by decide +kernel
  obtain ⟨l, hl, hhead⟩ := Option.map_eq_some_iff.mp hplaced
  rw [hl] at hlast
  exact absurd (hlast _ (List.mem_of_mem_head? hhead)).1 (by decide +kernel)

end Life

end BigPlan.Uid
