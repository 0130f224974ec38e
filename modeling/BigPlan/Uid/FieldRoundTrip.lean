import BigPlan.Uid.NextIdOrder

/-!
# Packing and parsing a uid

`allocate` and `parseUID` are inverse exactly on the fields that fit. The setters
and `afterPropertiesSet` also let through negative worker ids, epochs after the
clock and widths whose int sum wraps, so the inverse law has a condition.
-/
namespace BigPlan.Uid

open Lib.Java Lib.BitFields

/-- The uid has its sign bit clear and its fields come back out. -/
def DefaultUidGenerator.FieldsSurvive (g : DefaultUidGenerator) (d k q : JLong) : Prop :=
  0 ≤ (g.bitsAllocator.allocate d k q).toInt ∧
    g.parseUID (g.bitsAllocator.allocate d k q) = ⟨d, k, q⟩

namespace DefaultUidGenerator

variable {g g' : DefaultUidGenerator} {clock rest : List JLong} {uid : JLong} {e : UidError}

private theorem toNat_total_sub (x : JInt) :
    (BitsAllocator.TOTAL_BITS.signExtend 64 - x.signExtend 64).toNat % 64 =
      (64 - x.toNat % 64) % 64 := by
  have hx := toNat_signExtend_mod x
  have hlt := (x.signExtend 64).isLt
  have ht : (BitsAllocator.TOTAL_BITS.signExtend 64).toNat = 64 := by decide
  rw [BitVec.toNat_sub, ht]
  omega

private theorem toNat_sum_mod (x y : JInt) :
    (x.signExtend 64 + y.signExtend 64).toNat % 64 = (x.toNat % 64 + y.toNat % 64) % 64 := by
  have hx := toNat_signExtend_mod x
  have hy := toNat_signExtend_mod y
  rw [BitVec.toNat_add]
  omega

/-- The three fields that `parseUID` reads, as natural numbers. -/
theorem parseUID_fields (hb : g.bitsAllocator.WellFormed) (uid : JLong) :
    (g.parseUID uid).sequence.toNat = uid.toNat % 2 ^ g.bitsAllocator.seqWidth ∧
    (g.parseUID uid).workerId.toNat =
      uid.toNat % 2 ^ (g.bitsAllocator.workerWidth + g.bitsAllocator.seqWidth) /
        2 ^ g.bitsAllocator.seqWidth ∧
    (g.parseUID uid).deltaSeconds.toNat =
      uid.toNat / 2 ^ (g.bitsAllocator.workerWidth + g.bitsAllocator.seqWidth) := by
  have htot := hb.total
  have hw := hb.worker_pos
  have hs := hb.seq_pos
  have hsign : g.bitsAllocator.signBits.toNat = 1 := by rw [hb.sign]; rfl
  have h1 := toNat_total_sub g.bitsAllocator.sequenceBits
  have h2 := toNat_total_sub g.bitsAllocator.workerIdBits
  have h3 := toNat_sum_mod g.bitsAllocator.timestampBits g.bitsAllocator.signBits
  have h4 := toNat_sum_mod g.bitsAllocator.workerIdBits g.bitsAllocator.sequenceBits
  change _ = (64 - g.bitsAllocator.seqWidth) % 64 at h1
  change _ = (64 - g.bitsAllocator.workerWidth) % 64 at h2
  change _ = (g.bitsAllocator.timeWidth + _) % 64 at h3
  change _ = (g.bitsAllocator.workerWidth + g.bitsAllocator.seqWidth) % 64 at h4
  replace h1 := h1.trans (show _ = 64 - g.bitsAllocator.seqWidth by omega)
  replace h2 := h2.trans (show _ = 64 - g.bitsAllocator.workerWidth by omega)
  replace h3 := h3.trans (show _ = g.bitsAllocator.timeWidth + 1 by omega)
  replace h4 := h4.trans (show _ = g.bitsAllocator.workerWidth + g.bitsAllocator.seqWidth by omega)
  refine ⟨?_, ?_, ?_⟩
  · simp only [parseUID, shl, ushr, h1]
    rw [toNat_cut _ (by omega) le_rfl, Nat.sub_self, Nat.pow_zero, Nat.div_one,
      show 64 - (64 - g.bitsAllocator.seqWidth) = g.bitsAllocator.seqWidth by omega]
  · simp only [parseUID, shl, ushr, h2, h3]
    rw [toNat_cut _ (by omega) (by omega),
      show 64 - (g.bitsAllocator.timeWidth + 1) =
        g.bitsAllocator.workerWidth + g.bitsAllocator.seqWidth by omega,
      show 64 - g.bitsAllocator.workerWidth - (g.bitsAllocator.timeWidth + 1) =
        g.bitsAllocator.seqWidth by omega]
  · simp only [parseUID, ushr, h4]
    rw [BitVec.toNat_ushiftRight, Nat.shiftRight_eq_div_pow]

theorem parsed_worker_lt (hb : g.bitsAllocator.WellFormed) (uid : JLong) :
    (g.parseUID uid).workerId.toNat < 2 ^ g.bitsAllocator.workerWidth := by
  rw [(parseUID_fields hb uid).2.1]
  apply Nat.div_lt_of_lt_mul
  rw [← Nat.pow_add, Nat.add_comm g.bitsAllocator.seqWidth]
  exact Nat.mod_lt _ (Nat.two_pow_pos _)

theorem parsed_delta_lt (hb : g.bitsAllocator.WellFormed) (uid : JLong) :
    (g.parseUID uid).deltaSeconds.toNat < 2 ^ (g.bitsAllocator.timeWidth + 1) := by
  have htot := hb.total
  rw [(parseUID_fields hb uid).2.2]
  apply Nat.div_lt_of_lt_mul
  rw [← Nat.pow_add, show g.bitsAllocator.workerWidth + g.bitsAllocator.seqWidth +
    (g.bitsAllocator.timeWidth + 1) = 64 by omega]
  exact BitVec.isLt _

/-- Fields that fit their widths keep the sign bit clear and come back out. -/
theorem fieldsSurvive_of_fits (hb : g.bitsAllocator.WellFormed) {d k q : JLong}
    (hd : d.toNat < 2 ^ g.bitsAllocator.timeWidth) (hk : k.toNat < 2 ^ g.bitsAllocator.workerWidth)
    (hq : q.toNat < 2 ^ g.bitsAllocator.seqWidth) : g.FieldsSurvive d k q := by
  have htot := hb.total
  obtain ⟨hpq, hpk, hpd⟩ := parseUID_fields hb (g.bitsAllocator.allocate d k q)
  have hlow := join_lt hk hq
  have huid : (g.bitsAllocator.allocate d k q).toNat =
      join (g.bitsAllocator.workerWidth + g.bitsAllocator.seqWidth) d.toNat
        (join g.bitsAllocator.seqWidth k.toNat q.toNat) := by
    rw [BitsAllocator.toNat_allocate hb d hk hq,
      Nat.mod_eq_of_lt (hd.trans (Nat.pow_lt_pow_right (by decide) (by omega)))]
  have hlt := join_lt hd hlow
  rw [← huid, show g.bitsAllocator.timeWidth +
    (g.bitsAllocator.workerWidth + g.bitsAllocator.seqWidth) = 63 by omega] at hlt
  refine ⟨toInt_nonneg_iff.mpr hlt, ?_⟩
  have hmod : (g.bitsAllocator.allocate d k q).toNat % 2 ^ g.bitsAllocator.seqWidth = q.toNat := by
    rw [huid, join, Nat.pow_add, ← Nat.mul_assoc, Nat.add_comm, Nat.add_mul_mod_self_right,
      join_mod hq]
  rw [huid, join_div hlow] at hpd
  rw [huid, join_mod hlow, join_div hq] at hpk
  rw [hmod] at hpq
  exact ParsedUid.ext (BitVec.eq_of_toNat_eq hpd) (BitVec.eq_of_toNat_eq hpk)
    (BitVec.eq_of_toNat_eq hpq)

/-- For a layout that fills the word, the fields survive exactly when worker id and
delta seconds are not negative; their upper bounds are what the code checks. -/
theorem fieldsSurvive_iff (hb : g.bitsAllocator.WellFormed) {d k q : JLong}
    (hd : d.toInt ≤ g.bitsAllocator.maxDeltaSeconds.toInt)
    (hk : k.toInt ≤ g.bitsAllocator.maxWorkerId.toInt)
    (hq : q.toNat < 2 ^ g.bitsAllocator.seqWidth) :
    g.FieldsSurvive d k q ↔ 0 ≤ k.toInt ∧ 0 ≤ d.toInt := by
  have hT := BitsAllocator.two_pow_timeWidth_lt hb
  have hW := BitsAllocator.two_pow_workerWidth_lt hb
  constructor
  · rintro ⟨_, hparse⟩
    have hkf := parsed_worker_lt hb (g.bitsAllocator.allocate d k q)
    have hdf := parsed_delta_lt hb (g.bitsAllocator.allocate d k q)
    rw [hparse] at hkf hdf
    change k.toNat < _ at hkf
    change d.toNat < _ at hdf
    rw [Nat.pow_succ] at hdf
    exact ⟨toInt_nonneg_iff.mpr (by omega), toInt_nonneg_iff.mpr (by omega)⟩
  · rintro ⟨hk0, hd0⟩
    have hdf : d.toNat < 2 ^ g.bitsAllocator.timeWidth := by
      have h := toNat_eq_toInt hd0
      rw [BitsAllocator.toInt_maxDelta hb] at hd
      have : (d.toNat : Int) < (2 : Int) ^ g.bitsAllocator.timeWidth := by omega
      exact_mod_cast this
    exact fieldsSurvive_of_fits hb hdf (BitsAllocator.worker_fits hb hk0 hk) hq

private theorem mask_bounds {x : JLong} {n : Nat} (hx : x.toNat = 2 ^ n - 1) (hn : n < 64) :
    (0 : JLong).toInt ≤ x.toInt ∧ (0 < n → (1 : JLong).toInt ≤ x.toInt) := by
  have h0 : (0 : JLong).toInt = 0 := by decide
  have h1 : (1 : JLong).toInt = 1 := by decide
  have hle : 2 ^ n ≤ 2 ^ 63 := Nat.pow_le_pow_right (by decide) (by omega)
  have hint : x.toInt = x.toNat := toInt_of_lt (by have := Nat.two_pow_pos n; omega)
  refine ⟨by omega, fun hpos => ?_⟩
  have : 2 ^ 1 ≤ 2 ^ n := Nat.pow_le_pow_right (by decide) hpos
  omega

private theorem toNat_one_shiftLeft {n : Nat} (h : n < 64) : (1#64 <<< n).toNat = 2 ^ n := by
  have h1 : (1#64).toNat = 1 := by decide
  rw [BitVec.toNat_shiftLeft, h1, Nat.shiftLeft_eq, Nat.one_mul,
    Nat.mod_eq_of_lt (Nat.pow_lt_pow_right (by decide) h)]

private theorem allocate_shifts (hc : g.bitsAllocator.Constructed) (d k q : JLong) :
    g.bitsAllocator.allocate d k q =
      d <<< ((g.bitsAllocator.workerWidth + g.bitsAllocator.seqWidth) % 64) |||
        k <<< g.bitsAllocator.seqWidth ||| q := by
  rw [BitsAllocator.allocate, shl, shl, hc.timeShift, hc.workerShift]

private theorem toNat_parsed_sequence (g : DefaultUidGenerator) (uid : JLong) :
    (g.parseUID uid).sequence.toNat =
    uid.toNat % 2 ^ (64 - (64 - g.bitsAllocator.seqWidth) % 64) := by
  have h := toNat_total_sub g.bitsAllocator.sequenceBits
  change _ = (64 - g.bitsAllocator.seqWidth) % 64 at h
  simp only [parseUID, shl, ushr, h]
  rw [toNat_cut _ (Nat.le_of_lt (Nat.mod_lt _ (by decide))) le_rfl, Nat.sub_self, Nat.pow_zero,
    Nat.div_one]

private theorem toNat_parsed_worker (hs : g.bitsAllocator.signBits = 1)
    (hw : g.bitsAllocator.workerWidth = 0) (uid : JLong) : (g.parseUID uid).workerId =
      uid <<< ((g.bitsAllocator.timeWidth + 1) % 64) := by
  have h := toNat_total_sub g.bitsAllocator.workerIdBits
  have h' := toNat_sum_mod g.bitsAllocator.timestampBits g.bitsAllocator.signBits
  change _ = (64 - g.bitsAllocator.workerWidth) % 64 at h
  change _ = (g.bitsAllocator.timeWidth + _) % 64 at h'
  rw [hs] at h'
  simp only [parseUID, shl, ushr, h, hw, hs]
  rw [h']
  exact BitVec.ushiftRight_zero _

/-- An accepted layout whose fields overlap loses some triple within the maxima. -/
theorem exists_lost_of_not_fits {t w s : JInt} (hg : BitsAllocator.new t w s = .ok g.bitsAllocator)
    (hf : ¬ Fits t w s) : ∃ d k q : JLong,
      (0 ≤ d.toInt ∧ d.toInt ≤ g.bitsAllocator.maxDeltaSeconds.toInt) ∧
      (0 ≤ k.toInt ∧ k.toInt ≤ g.bitsAllocator.maxWorkerId.toInt) ∧
      (0 ≤ q.toInt ∧ q.toInt ≤ g.bitsAllocator.maxSequence.toInt) ∧ ¬ g.FieldsSurvive d k q := by
  obtain ⟨hc, rfl, rfl, rfl⟩ := BitsAllocator.new_constructed hg
  have htot := BitsAllocator.new_total hg
  have hT : g.bitsAllocator.timeWidth < 64 := Nat.mod_lt _ (by decide)
  have hW : g.bitsAllocator.workerWidth < 64 := Nat.mod_lt _ (by decide)
  have hS : g.bitsAllocator.seqWidth < 64 := Nat.mod_lt _ (by decide)
  obtain ⟨hd0, hd1⟩ := mask_bounds hc.maxDelta hT
  obtain ⟨hk0, hk1⟩ := mask_bounds hc.maxWorker hW
  obtain ⟨hq0, hq1⟩ := mask_bounds hc.maxSeq hS
  rcases Nat.eq_zero_or_pos g.bitsAllocator.seqWidth with hs | hs
  · -- an empty sequence field reads the whole word
    rcases Nat.eq_zero_or_pos g.bitsAllocator.workerWidth with hw | hw
    · refine ⟨1, 0, 0, ⟨by decide, hd1 (by omega)⟩, ⟨by decide, hk0⟩, ⟨by decide, hq0⟩, ?_⟩
      rintro ⟨_, h⟩
      have hn := toNat_parsed_sequence g (g.bitsAllocator.allocate 1 0 0)
      rw [h, allocate_shifts hc, hs, hw] at hn
      exact absurd hn (by decide)
    · refine ⟨0, 1, 0, ⟨by decide, hd0⟩, ⟨by decide, hk1 hw⟩, ⟨by decide, hq0⟩, ?_⟩
      rintro ⟨_, h⟩
      have hn := toNat_parsed_sequence g (g.bitsAllocator.allocate 0 1 0)
      rw [h, allocate_shifts hc, hs] at hn
      simp only [BitVec.ofNat_eq_ofNat, BitVec.zero_shiftLeft] at hn
      exact absurd hn (by decide)
  · rcases Nat.eq_zero_or_pos g.bitsAllocator.workerWidth with hw | hw
    · -- an empty worker field reads the shifted sequence
      refine ⟨0, 0, 1, ⟨by decide, hd0⟩, ⟨by decide, hk0⟩, ⟨by decide, hq1 hs⟩, ?_⟩
      rintro ⟨_, h⟩
      have hn := toNat_parsed_worker hc.sign hw (g.bitsAllocator.allocate 0 0 1)
      rw [h, allocate_shifts hc] at hn
      simp only [BitVec.ofNat_eq_ofNat, BitVec.zero_shiftLeft, BitVec.zero_or] at hn
      have h1 := congrArg BitVec.toNat hn
      rw [toNat_one_shiftLeft (Nat.mod_lt _ (by decide))] at h1
      exact absurd h1.symm (Nat.two_pow_pos _).ne'
    · -- the time field starts inside the sequence field
      have h127 : g.bitsAllocator.timeWidth + g.bitsAllocator.workerWidth +
          g.bitsAllocator.seqWidth = 127 :=
        htot.resolve_left fun he => hf ⟨hw, hs, he⟩
      refine ⟨1, 0, 0, ⟨by decide, hd1 (by omega)⟩, ⟨by decide, hk0⟩, ⟨by decide, hq0⟩, ?_⟩
      rintro ⟨_, h⟩
      have hn := toNat_parsed_sequence g (g.bitsAllocator.allocate 1 0 0)
      rw [h, allocate_shifts hc] at hn
      simp only [BitVec.ofNat_eq_ofNat, BitVec.zero_shiftLeft, BitVec.or_zero] at hn
      rw [toNat_one_shiftLeft (Nat.mod_lt _ (by decide)),
        Nat.mod_eq_of_lt (Nat.pow_lt_pow_right (by decide) (by omega))] at hn
      exact absurd hn.symm (Nat.two_pow_pos _).ne'

/-- The generators that successful or failed calls lead to from the start state. -/
inductive Reached (start : DefaultUidGenerator) : DefaultUidGenerator → Prop
  | start : Reached start start
  | call {g g' clock result} : Reached start g → g.nextId clock = (g', some result) →
      Reached start g'

theorem nextId_config (h : g.nextId clock = (g', some (.error e, rest))) :
    g' = g ∨ g' = { g with sequence := 0 } := by
  cases clock with
  | nil => cases h
  | cons millis clock =>
    simp only [nextId] at h
    split at h
    · cases h
      exact Or.inl rfl
    · split at h
      · cases h
        exact Or.inl rfl
      · split at h
        · split at h
          · rename_i hwrap
            split at h
            · simp [issue] at h
            · rw [hwrap] at h
              exact Or.inr (congrArg Prod.fst h).symm
          · simp [issue] at h
        · simp [issue] at h

theorem toNat_and_maxSequence_lt {b : BitsAllocator} (hc : b.Constructed) (x : JLong) :
    (x &&& b.maxSequence).toNat < 2 ^ b.seqWidth := by
  rw [BitVec.toNat_and, hc.maxSeq, Nat.and_two_pow_sub_one_eq_mod]
  exact Nat.mod_lt _ (Nat.two_pow_pos _)

/-- Calls leave the configuration alone and keep the sequence inside its field. -/
theorem Reached.config {start : DefaultUidGenerator} (hr : Reached start g)
    (hc : start.bitsAllocator.Constructed) (h0 : start.sequence = 0) :
    g.bitsAllocator = start.bitsAllocator ∧ g.epochSeconds = start.epochSeconds ∧
      g.workerId = start.workerId ∧ g.sequence.toNat < 2 ^ g.bitsAllocator.seqWidth := by
  induction hr with
  | start => exact ⟨rfl, rfl, rfl, by rw [h0]; exact Nat.two_pow_pos _⟩
  | @call g g' clock result _ hcall ih =>
    obtain ⟨hb, he, hw, hseq⟩ := ih
    obtain ⟨result, rest⟩ := result
    cases result with
    | error e =>
      rcases nextId_config hcall with rfl | rfl
      · exact ⟨hb, he, hw, hseq⟩
      · exact ⟨hb, he, hw, Nat.two_pow_pos _⟩
    | ok uid =>
      have hi := nextId_issues hcall
      refine ⟨hi.allocator.trans hb, hi.epoch.trans he, hi.worker.trans hw, ?_⟩
      rw [hi.allocator]
      rcases hi.advance with ⟨_, hz⟩ | ⟨_, _, hz⟩
      · rw [hz]
        exact Nat.two_pow_pos _
      · rw [hz]
        exact toNat_and_maxSequence_lt (hb ▸ hc) _

theorem Issues.sequence_lt (h : Issues g g' uid clock rest) (hc : g.bitsAllocator.Constructed) :
    g'.sequence.toNat < 2 ^ g'.bitsAllocator.seqWidth := by
  rw [h.allocator]
  rcases h.advance with ⟨_, hz⟩ | ⟨_, _, hz⟩
  · rw [hz]
    exact Nat.two_pow_pos _
  · rw [hz]
    exact toNat_and_maxSequence_lt hc _

theorem getCurrentSecond_delta {millis second : JLong} (h : g.getCurrentSecond millis = .ok second) :
    (second - g.epochSeconds).toInt ≤ g.bitsAllocator.maxDeltaSeconds.toInt := by
  simp only [getCurrentSecond] at h
  split at h
  · cases h
  · cases h
    omega

theorem configured_epoch {parse : String → Except UidError JLong} {p : UidProperties}
    (hp : p.Configured parse) : ∃ millis, p.epochSeconds = toSeconds millis := by
  induction hp with
  | default => exact ⟨1463673600000, rfl⟩
  | time n _ ih => unfold UidProperties.setTimeBits; split <;> exact ih
  | worker n _ ih => unfold UidProperties.setWorkerBits; split <;> exact ih
  | seq n _ ih => unfold UidProperties.setSeqBits; split <;> exact ih
  | @epoch p p' str _ hset ih =>
    cases str with
    | none =>
      cases hset
      exact ih
    | some str =>
      simp only [UidProperties.setEpochStr] at hset
      split at hset
      · cases hset
        exact ih
      · cases hparse : parse str with
        | error e => simp [hparse, bind, Except.bind] at hset
        | ok millis =>
          simp only [hparse, bind, Except.bind, pure, Except.pure] at hset
          cases hset
          exact ⟨millis, rfl⟩

/-- What an accepted call on a layout that fills the word gives back: the fields
survive exactly when the worker id is not negative and the second not before the epoch. -/
theorem nextId_fields_survive_iff {parse : String → Except UidError JLong} {p : UidProperties}
    {workerId : JLong} {start : DefaultUidGenerator} (used rest : List JLong) (millis : JLong)
    (hp : p.Configured parse) (hg : afterPropertiesSet p workerId = .ok start)
    (hr : Reached start g)
    (hcall : g.nextId (used ++ millis :: rest) = (g', some (.ok uid, rest))) :
    (Fits p.timeBits p.workerBits p.seqBits →
      ((0 ≤ uid.toInt ∧
        g'.parseUID uid = ⟨g'.lastSecond - g'.epochSeconds, g'.workerId, g'.sequence⟩) ↔
        0 ≤ workerId.toInt ∧ p.epochSeconds.toInt ≤ (toSeconds millis).toInt)) ∧
    (¬ Fits p.timeBits p.workerBits p.seqBits → ∃ d k q : JLong,
      (0 ≤ d.toInt ∧ d.toInt ≤ start.bitsAllocator.maxDeltaSeconds.toInt) ∧
      (0 ≤ k.toInt ∧ k.toInt ≤ start.bitsAllocator.maxWorkerId.toInt) ∧
      (0 ≤ q.toInt ∧ q.toInt ≤ start.bitsAllocator.maxSequence.toInt) ∧
      ¬ start.FieldsSurvive d k q) := by
  obtain ⟨hnew, hmax, hworker, hepoch, hseq0, _⟩ := afterPropertiesSet_eq hg
  refine ⟨fun hf => ?_, exists_lost_of_not_fits hnew⟩
  have hwf := BitsAllocator.new_wellFormed hf hnew
  obtain ⟨hb, he, hw, _⟩ := hr.config hwf.toConstructed hseq0
  have hi := nextId_issues hcall
  have hb' : g'.bitsAllocator = start.bitsAllocator := hi.allocator.trans hb
  obtain ⟨used', millis', hclock, hms⟩ := hi.reading
  obtain rfl : millis = millis' :=
    (List.cons.inj (List.append_inj_right' hclock rfl)).1
  have hsecond := getCurrentSecond_eq hms
  have hdelta := getCurrentSecond_delta hms
  have hepoch' : g'.epochSeconds = p.epochSeconds := (hi.epoch.trans he).trans hepoch
  have hworker' : g'.workerId = workerId := (hi.worker.trans hw).trans hworker
  have hwf' : g'.bitsAllocator.WellFormed := hb'.symm ▸ hwf
  have hd' : (g'.lastSecond - g'.epochSeconds).toInt ≤
      g'.bitsAllocator.maxDeltaSeconds.toInt := by
    rw [hi.epoch, hb', ← hb]
    exact hdelta
  have hk' : g'.workerId.toInt ≤ g'.bitsAllocator.maxWorkerId.toInt := by
    rw [hworker', hb']
    exact hmax
  have hq' := hi.sequence_lt (hb.symm ▸ hwf.toConstructed)
  rw [hi.uid_eq]
  refine (fieldsSurvive_iff hwf' hd' hk' hq').trans ?_
  rw [hworker', hepoch', hsecond]
  obtain ⟨m0, hm0⟩ := configured_epoch hp
  have h1 := toSeconds_bounds m0
  have h2 := toSeconds_bounds millis
  rw [hm0, toInt_sub_of_fits (by omega) (by omega)]
  omega

theorem twoBitProperties_configured (parse : String → Except UidError JLong) :
    twoBitProperties.Configured parse := .seq 2 (.worker 21 (.time 40 .default))

/-- Worker id 0 and a clock after the epoch. -/
theorem nextId_fields_survive_iff_twoBit : ∃ g' uid,
    twoBitSequence.nextId [1500000000000] = (g', some (.ok uid, [])) ∧ 0 ≤ uid.toInt ∧
      g'.parseUID uid = ⟨g'.lastSecond - g'.epochSeconds, g'.workerId, g'.sequence⟩ := by
  refine ⟨_, _, rfl, ?_⟩
  have h := nextId_fields_survive_iff [] [] 1500000000000
    (twoBitProperties_configured fun _ => .ok 0) twoBitSequence_eq .start rfl
  exact (h.1 twoBitProperties_valid.fits).mpr ⟨by decide, by decide +kernel⟩

/-- A negative worker id passes the check, and a clock before the epoch does not
throw: both put a one into the sign bit. -/
theorem nextId_loses_fields :
    ¬ ∀ (parse : String → Except UidError JLong) (p : UidProperties) (workerId uid : JLong)
      (start g g' : DefaultUidGenerator) (clock rest : List JLong),
      p.Configured parse → afterPropertiesSet p workerId = .ok start → Reached start g →
      g.nextId clock = (g', some (.ok uid, rest)) →
      0 ≤ uid.toInt ∧
        g'.parseUID uid = ⟨g'.lastSecond - g'.epochSeconds, g'.workerId, g'.sequence⟩ := by
  intro h
  have hneg := h (fun _ => .ok 0) {} (-1) _ _ _ _ [1500000000000] [] .default rfl .start rfl
  exact absurd hneg.1 (by decide)

end DefaultUidGenerator

end BigPlan.Uid
