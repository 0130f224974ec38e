import BigPlan.Uid.DefaultUidGenerator

/-!
# Order of the uncached uids

Under a valid layout and clock readings inside the time field, the uid of the
volatile fields is a join of three fields whose value is ordered like the pair
(`lastSecond`, `sequence`). Every successful call moves that pair forward, and a
call that throws leaves it where it was.
-/
namespace BigPlan.Uid.DefaultUidGenerator

open Lib.Java Lib.BitFields

variable {g g' : DefaultUidGenerator} {clock rest : List JLong} {uid : JLong}

/-- A generator whose worker id and sequence fit the fields of a valid layout. -/
structure Ready (g : DefaultUidGenerator) : Prop where
  layout : g.bitsAllocator.WellFormed
  worker : g.workerId.toNat < 2 ^ g.bitsAllocator.workerWidth
  sequence : g.sequence.toNat < 2 ^ g.bitsAllocator.seqWidth

/-- The second is neither before the epoch nor beyond `epoch + maxDeltaSeconds`. -/
def WithinTimeField (g : DefaultUidGenerator) (second : JLong) : Prop :=
  g.epochSeconds.toInt ≤ second.toInt ∧
    second.toInt ≤ g.epochSeconds.toInt + g.bitsAllocator.maxDeltaSeconds.toInt

instance (g : DefaultUidGenerator) (second : JLong) : Decidable (g.WithinTimeField second) :=
  inferInstanceAs (Decidable (_ ∧ _))

theorem afterPropertiesSet_eq {p : UidProperties} {workerId : JLong}
    (h : afterPropertiesSet p workerId = .ok g) :
    BitsAllocator.new p.timeBits p.workerBits p.seqBits = .ok g.bitsAllocator ∧
      workerId.toInt ≤ g.bitsAllocator.maxWorkerId.toInt ∧ g.workerId = workerId ∧
      g.epochSeconds = p.epochSeconds ∧ g.sequence = 0 ∧ g.lastSecond = -1 := by
  cases hb : BitsAllocator.new p.timeBits p.workerBits p.seqBits with
  | error e => simp [afterPropertiesSet, hb, bind, Except.bind] at h
  | ok b =>
    simp only [afterPropertiesSet, hb, bind, Except.bind, pure, Except.pure] at h
    split at h
    · cases h
    · rename_i hle
      cases h
      exact ⟨rfl, Int.not_lt.mp hle, rfl, rfl, rfl, rfl⟩

theorem afterPropertiesSet_total {p : UidProperties} {workerId : JLong} {b : BitsAllocator}
    (hb : BitsAllocator.new p.timeBits p.workerBits p.seqBits = .ok b)
    (hw : workerId.toInt ≤ b.maxWorkerId.toInt) :
    ∃ g, afterPropertiesSet p workerId = .ok g ∧ g.bitsAllocator = b := by
  simp only [afterPropertiesSet, hb, bind, Except.bind]
  rw [if_neg (Int.not_lt.mpr hw)]
  exact ⟨_, rfl, rfl⟩

theorem ready_of_afterPropertiesSet {p : UidProperties} {workerId : JLong}
    (hl : ValidLayout p.timeBits p.workerBits p.seqBits)
    (h : afterPropertiesSet p workerId = .ok g) (hw : 0 ≤ workerId.toInt) : g.Ready := by
  obtain ⟨hb, hmax, rfl, _, hseq, _⟩ := afterPropertiesSet_eq h
  have hwf := BitsAllocator.new_wellFormed hl.fits hb
  refine ⟨hwf, BitsAllocator.worker_fits hwf hw hmax, ?_⟩
  rw [hseq]
  exact Nat.two_pow_pos _

theorem toInt_delta (hb : g.bitsAllocator.WellFormed) {second : JLong}
    (h : g.WithinTimeField second) :
    (second - g.epochSeconds).toInt = second.toInt - g.epochSeconds.toInt ∧
      (second - g.epochSeconds).toNat < 2 ^ g.bitsAllocator.timeWidth := by
  obtain ⟨hlo, hhi⟩ := h
  have ht := BitsAllocator.two_pow_timeWidth_lt hb
  have hp := Nat.two_pow_pos g.bitsAllocator.timeWidth
  rw [BitsAllocator.toInt_maxDelta hb] at hhi
  have ht' : (2 : Int) ^ g.bitsAllocator.timeWidth < 2 ^ 62 := by exact_mod_cast ht
  have hd := toInt_sub_of_fits (x := second) (y := g.epochSeconds) (by omega) (by omega)
  refine ⟨hd, ?_⟩
  have hn := toNat_eq_toInt (x := second - g.epochSeconds) (by omega)
  have : ((second - g.epochSeconds).toNat : Int) < (2 : Int) ^ g.bitsAllocator.timeWidth := by omega
  exact_mod_cast this

theorem getCurrentSecond_of_within (hb : g.bitsAllocator.WellFormed) {millis : JLong}
    (h : g.WithinTimeField (toSeconds millis)) :
    g.getCurrentSecond millis = .ok (toSeconds millis) := by
  have hd := (toInt_delta hb h).1
  obtain ⟨_, hhi⟩ := h
  simp only [getCurrentSecond]
  rw [if_neg (by omega)]

theorem getCurrentSecond_eq {millis second : JLong} (h : g.getCurrentSecond millis = .ok second) :
    second = toSeconds millis := by
  simp only [getCurrentSecond] at h
  split at h
  · cases h
  · exact (Except.ok.inj h).symm

/-- The value of the packed word when all three fields fit. -/
theorem toNat_currentUid (hg : g.Ready) (hs : g.WithinTimeField g.lastSecond) :
    g.currentUid.toNat = join (g.bitsAllocator.workerWidth + g.bitsAllocator.seqWidth)
      (g.lastSecond - g.epochSeconds).toNat
      (join g.bitsAllocator.seqWidth g.workerId.toNat g.sequence.toNat) := by
  have hd := (toInt_delta hg.layout hs).2
  rw [currentUid, BitsAllocator.toNat_allocate hg.layout _ hg.worker hg.sequence,
    Nat.mod_eq_of_lt (hd.trans (Nat.pow_lt_pow_right (by decide) (by omega)))]

theorem toNat_currentUid_lt (hg : g.Ready) (hs : g.WithinTimeField g.lastSecond) :
    g.currentUid.toNat < 2 ^ 63 := by
  have h := join_lt (toInt_delta hg.layout hs).2 (join_lt hg.worker hg.sequence)
  rw [← toNat_currentUid hg hs] at h
  have htot := hg.layout.total
  rwa [show g.bitsAllocator.timeWidth + (g.bitsAllocator.workerWidth + g.bitsAllocator.seqWidth) =
    63 by omega] at h

/-- The masked increment is the increment unless it wraps to zero. -/
theorem toNat_nextSequence (hg : g.Ready)
    (h : (g.sequence + 1) &&& g.bitsAllocator.maxSequence ≠ 0) :
    ((g.sequence + 1) &&& g.bitsAllocator.maxSequence).toNat = g.sequence.toNat + 1 ∧
      g.sequence.toNat + 1 < 2 ^ g.bitsAllocator.seqWidth := by
  have hseq := hg.sequence
  have hpow : 2 ^ g.bitsAllocator.seqWidth ≤ 2 ^ 62 :=
    Nat.pow_le_pow_right (by decide)
      (by have := hg.layout.total; have := hg.layout.worker_pos; omega)
  have h1 : (1 : JLong).toNat = 1 := by decide
  have hadd : (g.sequence + 1).toNat = g.sequence.toNat + 1 := by
    rw [BitVec.toNat_add, h1, Nat.mod_eq_of_lt (by omega)]
  have hmask : ((g.sequence + 1) &&& g.bitsAllocator.maxSequence).toNat =
      (g.sequence.toNat + 1) % 2 ^ g.bitsAllocator.seqWidth := by
    rw [BitVec.toNat_and, hadd, hg.layout.maxSeq, Nat.and_two_pow_sub_one_eq_mod]
  have hne : (g.sequence.toNat + 1) % 2 ^ g.bitsAllocator.seqWidth ≠ 0 := by
    intro h0
    exact h (BitVec.eq_of_toNat_eq (by rw [hmask, h0]; rfl))
  have hlt : g.sequence.toNat + 1 < 2 ^ g.bitsAllocator.seqWidth := by
    rcases Nat.lt_or_ge (g.sequence.toNat + 1) (2 ^ g.bitsAllocator.seqWidth) with hlt | hge
    · exact hlt
    · have heq : g.sequence.toNat + 1 = 2 ^ g.bitsAllocator.seqWidth := by omega
      exact absurd (by rw [heq, Nat.mod_self]) hne
  exact ⟨by rw [hmask, Nat.mod_eq_of_lt hlt], hlt⟩

/-- A successful call keeps the generator ready. -/
theorem Issues.ready (h : Issues g g' uid clock rest) (hg : g.Ready) : g'.Ready := by
  refine ⟨h.allocator ▸ hg.layout, by rw [h.allocator, h.worker]; exact hg.worker, ?_⟩
  rw [h.allocator]
  rcases h.advance with ⟨_, h0⟩ | ⟨_, hne, heq⟩
  · rw [h0]
    exact Nat.two_pow_pos _
  · rw [heq] at hne ⊢
    obtain ⟨hn, hlt⟩ := toNat_nextSequence hg hne
    omega

theorem Issues.within (h : Issues g g' uid clock rest)
    (hclock : ∀ millis ∈ clock, g.WithinTimeField (toSeconds millis)) :
    g'.WithinTimeField g'.lastSecond := by
  obtain ⟨used, millis, rfl, hms⟩ := h.reading
  rw [getCurrentSecond_eq hms]
  have := hclock millis (by simp)
  unfold WithinTimeField at this ⊢
  rwa [h.allocator, h.epoch]

theorem Issues.rest_subset (h : Issues g g' uid clock rest) : ∀ millis ∈ rest, millis ∈ clock := by
  obtain ⟨used, millis, rfl, _⟩ := h.reading
  intro ms hms
  simp [hms]

/-- The packed uid grows with every successful call. -/
theorem Issues.currentUid_lt (h : Issues g g' uid clock rest) (hg : g.Ready)
    (hs : g.WithinTimeField g.lastSecond) (hs' : g'.WithinTimeField g'.lastSecond) :
    g.currentUid.toInt < g'.currentUid.toInt := by
  have hg' := h.ready hg
  rw [toInt_of_lt (toNat_currentUid_lt hg hs), toInt_of_lt (toNat_currentUid_lt hg' hs'),
    toNat_currentUid hg hs, toNat_currentUid hg' hs', h.allocator, h.worker, Int.ofNat_lt,
    join_lt_join (join_lt hg.worker hg.sequence)
      (join_lt hg.worker (h.allocator ▸ hg'.sequence))]
  have hd := (toInt_delta hg.layout hs)
  have hd' := (toInt_delta hg'.layout hs')
  rcases h.advance with ⟨hlt, _⟩ | ⟨hsame, hne, heq⟩
  · left
    have hn := toNat_eq_toInt (x := g.lastSecond - g.epochSeconds) (by have := hs.1; omega)
    have hn' := toNat_eq_toInt (x := g'.lastSecond - g'.epochSeconds) (by have := hs'.1; omega)
    rw [h.epoch] at hn' hd' ⊢
    omega
  · right
    rw [heq] at hne
    obtain ⟨hn, hlt⟩ := toNat_nextSequence hg hne
    refine ⟨by rw [hsame, h.epoch], ?_⟩
    rw [join_lt_join hg.sequence (by rw [heq, hn]; exact hlt), heq, hn]
    exact Or.inr ⟨rfl, by omega⟩

theorem getNextSecond_ne_error {last : JLong} {e : UidError} (hb : g.bitsAllocator.WellFormed)
    (hclock : ∀ millis ∈ clock, g.WithinTimeField (toSeconds millis)) :
    g.getNextSecond last clock ≠ some (.error e, rest) := by
  induction clock with
  | nil => simp [getNextSecond]
  | cons millis clock ih =>
    simp only [getNextSecond, getCurrentSecond_of_within hb (hclock millis List.mem_cons_self)]
    split
    · exact ih fun ms hms => hclock ms (List.mem_cons_of_mem _ hms)
    · simp

/-- With all readings inside the time field a call throws only because the clock
moved backwards, and then it changes nothing. -/
theorem nextId_error {e : UidError} (hb : g.bitsAllocator.WellFormed)
    (hclock : ∀ millis ∈ clock, g.WithinTimeField (toSeconds millis))
    (h : g.nextId clock = (g', some (.error e, rest))) :
    g' = g ∧ ∀ millis ∈ rest, millis ∈ clock := by
  cases clock with
  | nil => cases h
  | cons millis clock =>
    simp only [nextId, getCurrentSecond_of_within hb (hclock millis List.mem_cons_self)] at h
    split at h
    · cases h
      exact ⟨rfl, fun ms hms => List.mem_cons_of_mem _ hms⟩
    · split at h
      · split at h
        · split at h
          · simp [issue] at h
          · rename_i outcome hno
            simp only [Prod.mk.injEq] at h
            obtain ⟨_, hout⟩ := h
            exact absurd hout
              (getNextSecond_ne_error hb fun ms hms => hclock ms (List.mem_cons_of_mem _ hms))
        · simp [issue] at h
      · simp [issue] at h

/-- The successful calls of a run return growing uids, all above the uid of the
volatile fields if that one was issued. -/
theorem nextIds_above (n : Nat) (hg : g.Ready)
    (hclock : ∀ millis ∈ clock, g.WithinTimeField (toSeconds millis)) :
    (uidsOf (nextIds n g clock)).Pairwise (fun a b => a.toInt < b.toInt) ∧
      (g.WithinTimeField g.lastSecond →
        ∀ u ∈ uidsOf (nextIds n g clock), g.currentUid.toInt < u.toInt) := by
  induction n generalizing g clock with
  | zero => simp [nextIds, uidsOf]
  | succ n ih =>
    simp only [nextIds]
    split
    · simp [uidsOf]
    · rename_i g' result clock' hcall
      cases result with
      | error e =>
        obtain ⟨rfl, hsub⟩ := nextId_error hg.layout hclock hcall
        exact ih hg fun ms hms => hclock ms (hsub ms hms)
      | ok uid =>
        have hi := nextId_issues hcall
        have hw := hi.within hclock
        have hclock' : ∀ millis ∈ clock', g'.WithinTimeField (toSeconds millis) := by
          intro ms hms
          have := hclock ms (hi.rest_subset ms hms)
          unfold WithinTimeField at this ⊢
          rwa [hi.allocator, hi.epoch]
        obtain ⟨hpair, habove⟩ := ih (hi.ready hg) hclock'
        have hcons : uidsOf (.ok uid :: nextIds n g' clock') =
            uid :: uidsOf (nextIds n g' clock') := rfl
        rw [hcons, List.pairwise_cons, hi.uid_eq]
        refine ⟨⟨habove hw, hpair⟩, fun hs u hu => ?_⟩
        have hlt := hi.currentUid_lt hg hs hw
        rcases List.mem_cons.mp hu with rfl | hu
        · exact hlt
        · exact Int.lt_trans hlt (habove hw u hu)

/-- Whatever calls throw in between, and however often the sequence wraps, the
uids of the successful calls are strictly increasing. -/
theorem nextIds_strictly_increasing {p : UidProperties} {workerId : JLong}
    (hl : ValidLayout p.timeBits p.workerBits p.seqBits)
    (hg : afterPropertiesSet p workerId = .ok g) (hw : 0 ≤ workerId.toInt) (n : Nat)
    (clock : List JLong) (hclock : ∀ millis ∈ clock, g.WithinTimeField (toSeconds millis)) :
    (uidsOf (nextIds n g clock)).Pairwise (fun a b => a.toInt < b.toInt) ∧
      (uidsOf (nextIds n g clock)).Nodup := by
  have h := (nextIds_above n (ready_of_afterPropertiesSet hl hg hw) hclock).1
  exact ⟨h, h.imp fun hlt heq => by rw [heq] at hlt; omega⟩

/-- The clock goes back at the third reading and then stands still for three. -/
def wrappingClock : List JLong :=
  [1500000000000, 1500000000000, 1499999999000, 1500000000000, 1500000000000, 1500000000000,
    1500000001000]

/-- With two sequence bits the fifth uid waits for the next second. -/
theorem nextIds_strictly_increasing_wrap :
    (uidsOf (nextIds 6 twoBitSequence wrappingClock)).length = 5 ∧
      (uidsOf (nextIds 6 twoBitSequence wrappingClock)).Nodup := by
  have hclock : (wrappingClock.all fun millis =>
      decide (twoBitSequence.WithinTimeField (toSeconds millis))) = true := by decide +kernel
  have h := nextIds_strictly_increasing twoBitProperties_valid twoBitSequence_eq (by decide) 6
    wrappingClock (by simpa using hclock)
  exact ⟨by decide +kernel, h.2⟩

end BigPlan.Uid.DefaultUidGenerator
