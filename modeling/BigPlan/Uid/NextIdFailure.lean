import BigPlan.Uid.CachedOrder
import BigPlan.Uid.FieldRoundTrip

/-!
# Calls of `nextId` that throw

`nextId` throws when the clock moved backwards or when a reading is past the time field. A
call that waits for the next second has already reset the sequence when it throws. Beside the
generator stands what its calls returned, and the generator before and after each call that
threw.
-/
namespace BigPlan.Uid

open Lib.Java Lib.Runs

structure NextIdCalls where
  generator : DefaultUidGenerator
  returned : List JLong
  failed : List (DefaultUidGenerator × DefaultUidGenerator)

namespace DefaultUidGenerator

variable {g g' : DefaultUidGenerator} {clock rest : List JLong} {uid : JLong} {e : UidError}

/-- While the clock stays at the last second or before it, no reading of these is past the
time field; the one that comes next is. -/
def WaitFails (g : DefaultUidGenerator) (clock : List JLong) : Prop :=
  ∃ waiting late rest, clock = waiting ++ late :: rest ∧
    (∀ millis ∈ waiting, ∃ second, g.getCurrentSecond millis = .ok second ∧
      second.toInt ≤ g.lastSecond.toInt) ∧
    ∃ e, g.getCurrentSecond late = .error e

/-- The call finds the sequence of the last second used up, and its wait fails. -/
def RunsOut (g : DefaultUidGenerator) (clock : List JLong) : Prop :=
  ∃ millis later, clock = millis :: later ∧ g.getCurrentSecond millis = .ok g.lastSecond ∧
    (g.sequence + 1) &&& g.bitsAllocator.maxSequence = 0 ∧ g.WaitFails later

theorem getNextSecond_error_iff :
    (∃ e rest, g.getNextSecond g.lastSecond clock = some (.error e, rest)) ↔ g.WaitFails clock := by
  induction clock with
  | nil =>
    constructor
    · intro h
      obtain ⟨e, rest, h⟩ := h
      cases h
    · intro h
      obtain ⟨waiting, late, rest, hclock, -⟩ := h
      simp at hclock
  | cons millis clock ih =>
    simp only [getNextSecond]
    cases hs : g.getCurrentSecond millis with
    | error e =>
      exact iff_of_true ⟨e, clock, rfl⟩ ⟨[], millis, clock, rfl, by simp, e, hs⟩
    | ok second =>
      dsimp only
      by_cases hle : second.toInt ≤ g.lastSecond.toInt
      · rw [if_pos hle, ih]
        constructor
        · intro h
          obtain ⟨waiting, late, rest, rfl, hwaiting, hlate⟩ := h
          refine ⟨millis :: waiting, late, rest, rfl, ?_, hlate⟩
          intro m hm
          rcases List.mem_cons.mp hm with rfl | hm
          · exact ⟨second, hs, hle⟩
          · exact hwaiting m hm
        · intro h
          obtain ⟨waiting, late, rest, hclock, hwaiting, e, hlate⟩ := h
          cases waiting with
          | nil =>
            cases hclock
            rw [hs] at hlate
            cases hlate
          | cons m waiting =>
            cases hclock
            exact ⟨waiting, late, rest, rfl,
              fun m hm => hwaiting m (List.mem_cons_of_mem _ hm), e, hlate⟩
      · rw [if_neg hle]
        refine iff_of_false (by simp) ?_
        intro h
        obtain ⟨waiting, late, rest, hclock, hwaiting, e, hlate⟩ := h
        cases waiting with
        | nil =>
          cases hclock
          rw [hs] at hlate
          cases hlate
        | cons m waiting =>
          cases hclock
          obtain ⟨second', hsecond, hle'⟩ := hwaiting millis List.mem_cons_self
          rw [hs] at hsecond
          cases hsecond
          exact hle hle'

instance (g : DefaultUidGenerator) (clock : List JLong) : Decidable (g.WaitFails clock) :=
  match h : g.getNextSecond g.lastSecond clock with
  | some (.error e, rest) => isTrue (getNextSecond_error_iff.mp ⟨e, rest, h⟩)
  | some (.ok _, _) => isFalse fun hwait => by
    obtain ⟨e, rest, herror⟩ := getNextSecond_error_iff.mpr hwait
    rw [h] at herror
    cases herror
  | none => isFalse fun hwait => by
    obtain ⟨e, rest, herror⟩ := getNextSecond_error_iff.mpr hwait
    rw [h] at herror
    cases herror

instance (g : DefaultUidGenerator) : (clock : List JLong) → Decidable (g.RunsOut clock)
  | [] => isFalse fun h => by
    obtain ⟨millis, later, hclock, -⟩ := h
    cases hclock
  | millis :: later =>
    decidable_of_iff (g.getCurrentSecond millis = .ok g.lastSecond ∧
        (g.sequence + 1) &&& g.bitsAllocator.maxSequence = 0 ∧ g.WaitFails later) <| by
      constructor
      · intro h
        exact ⟨millis, later, rfl, h⟩
      · intro h
        obtain ⟨_, _, hclock, h⟩ := h
        cases hclock
        exact h

@[simp] theorem getNextSecond_sequence (g : DefaultUidGenerator) (sequence last : JLong)
    (clock : List JLong) :
    ({ g with sequence } : DefaultUidGenerator).getNextSecond last clock =
      g.getNextSecond last clock := by
  induction clock with
  | nil => rfl
  | cons millis clock ih =>
    simp only [getNextSecond]
    rw [ih]
    rfl

/-- A call that runs out throws with the sequence reset. -/
theorem nextId_of_runsOut (h : g.RunsOut clock) :
    ∃ e rest, g.nextId clock = ({ g with sequence := 0 }, some (.error e, rest)) := by
  obtain ⟨millis, later, rfl, hs, hwrap, hwait⟩ := h
  obtain ⟨e, rest, hnext⟩ := getNextSecond_error_iff.mpr hwait
  refine ⟨e, rest, ?_⟩
  simp only [nextId, hs, if_neg (Int.lt_irrefl _), if_true, hwrap, getNextSecond_sequence, hnext]

/-- Any other call that throws leaves the generator as it was. -/
theorem eq_of_nextId_error (h : g.nextId clock = (g', some (.error e, rest)))
    (hsafe : ¬ g.RunsOut clock) : g' = g := by
  cases clock with
  | nil => cases h
  | cons millis later =>
    simp only [nextId] at h
    cases hs : g.getCurrentSecond millis with
    | error e' =>
      simp only [hs] at h
      cases h
      rfl
    | ok currentSecond =>
      simp only [hs] at h
      split at h
      · cases h
        rfl
      · split at h
        · rename_i hsame
          split at h
          · rename_i hwrap
            rw [getNextSecond_sequence] at h
            split at h
            · cases h
            · have hnext := congrArg Prod.snd h
              exact absurd ⟨millis, later, rfl, hsame ▸ hs, hwrap,
                getNextSecond_error_iff.mp ⟨e, rest, hnext⟩⟩ hsafe
          · cases h
        · cases h

/-- On a valid layout the sequence that was used up was not zero. -/
theorem sequence_ne_zero (hb : g.bitsAllocator.WellFormed)
    (hwrap : (g.sequence + 1) &&& g.bitsAllocator.maxSequence = 0) : g.sequence ≠ 0 := by
  intro hzero
  rw [hzero] at hwrap
  have h1 : (0 + 1 : JLong).toNat = 1 := by decide
  have hn := congrArg BitVec.toNat hwrap
  have hpow : 2 ≤ 2 ^ g.bitsAllocator.seqWidth :=
    Nat.le_self_pow (by have := hb.seq_pos; omega) 2
  rw [BitVec.toNat_and, h1, hb.maxSeq, Nat.and_two_pow_sub_one_eq_mod,
    Nat.mod_eq_of_lt (by omega)] at hn
  cases hn

instance (g : DefaultUidGenerator) (second : JLong) : Decidable (g.InWindow second) :=
  inferInstanceAs (Decidable (_ ∧ _))

def HeldInWindow (g : DefaultUidGenerator) : Except UidError JLong → Prop
  | .ok second => g.InWindow second
  | .error _ => True

instance (g : DefaultUidGenerator) : DecidablePred g.HeldInWindow
  | .ok second => inferInstanceAs (Decidable (g.InWindow second))
  | .error _ => isTrue trivial

/-- No reading that is let through is more than `2 ^ timeBits` seconds before the epoch. -/
def ReadsInWindow (g : DefaultUidGenerator) (clock : List JLong) : Prop :=
  ∀ millis ∈ clock, g.HeldInWindow (g.getCurrentSecond millis)

-- the instance for quantifiers over bit vectors would go through all of them
instance (g : DefaultUidGenerator) (clock : List JLong) : Decidable (g.ReadsInWindow clock) :=
  List.decidableBAll (fun millis => g.HeldInWindow (g.getCurrentSecond millis)) clock

theorem Issues.inWindow (h : Issues g g' uid clock rest) (hclock : g.ReadsInWindow clock) :
    g'.InWindow g'.lastSecond := by
  obtain ⟨used, millis, rfl, hs⟩ := h.reading
  have hwin := hclock millis (by simp)
  rw [hs] at hwin
  unfold HeldInWindow InWindow at hwin
  unfold InWindow
  rwa [h.allocator, h.epoch]

/-- Inside the window the packed uid grows with every successful call. -/
theorem Issues.currentUid_lt_of_inWindow (h : Issues g g' uid clock rest) (hg : g.Ready)
    (hs : g.InWindow g.lastSecond) (hs' : g'.InWindow g'.lastSecond) :
    g.currentUid.toInt < g'.currentUid.toInt := by
  have hg' := h.ready hg
  have hd := toInt_delta_of_inWindow hg.layout hs
  have hd' := toInt_delta_of_inWindow hg'.layout hs'
  obtain ⟨hlo, hhi⟩ := hs
  obtain ⟨hlo', hhi'⟩ := hs'
  rw [currentUid, currentUid, h.allocator, h.worker]
  rw [h.allocator] at hlo' hhi'
  rw [BitsAllocator.allocate_lt_allocate hg.layout (by omega) (by omega) (by omega) (by omega)
    hg.worker hg.sequence (h.allocator ▸ h.sequence_lt hg.layout.toConstructed), hd, hd', h.epoch]
  rcases h.advance with ⟨hlt, -⟩ | ⟨hsame, hne, heq⟩
  · left
    omega
  · right
    rw [heq] at hne
    obtain ⟨hn, -⟩ := toNat_nextSequence hg hne
    refine ⟨by rw [hsame], ?_⟩
    rw [heq, hn]
    omega

end DefaultUidGenerator

namespace NextIdCalls

open DefaultUidGenerator

def start (generator : DefaultUidGenerator) : NextIdCalls := { generator, returned := [], failed := [] }

/-- One call with the readings that it sees. A call that still waits after them keeps the lock:
it is none of the calls of the run. -/
def step (s : NextIdCalls) (clock : List JLong) : NextIdCalls :=
  match s.generator.nextId clock with
  | (_, none) => s
  | (generator, some (.ok uid, _)) => { s with generator, returned := s.returned ++ [uid] }
  | (generator, some (.error _, _)) =>
    { s with generator, failed := s.failed ++ [(s.generator, generator)] }

/-- No call that threw has changed the generator. -/
def Unchanged (s : NextIdCalls) : Prop := ∀ p ∈ s.failed, p.2 = p.1

/-- What the uids of the calls so far have to do with the generator. -/
structure Issued (s : NextIdCalls) : Prop where
  layout : s.generator.bitsAllocator.WellFormed
  worker : s.generator.workerId.toNat < 2 ^ s.generator.bitsAllocator.workerWidth
  sorted : s.returned.Pairwise fun a b => a.toInt < b.toInt
  below : s.returned ≠ [] →
    s.generator.sequence.toNat < 2 ^ s.generator.bitsAllocator.seqWidth ∧
      s.generator.InWindow s.generator.lastSecond ∧
      ∀ uid ∈ s.returned, uid.toInt ≤ s.generator.currentUid.toInt

variable {s : NextIdCalls} {clock : List JLong}

theorem issued_start {g : DefaultUidGenerator} (hb : g.bitsAllocator.WellFormed)
    (hw : g.workerId.toNat < 2 ^ g.bitsAllocator.workerWidth) : (start g).Issued :=
  ⟨hb, hw, .nil, fun h => absurd rfl h⟩

theorem Issued.returns {g' : DefaultUidGenerator} {uid : JLong} {rest : List JLong} (h : s.Issued)
    (hi : Issues s.generator g' uid clock rest) (hclock : s.generator.ReadsInWindow clock) :
    Issued { s with generator := g', returned := s.returned ++ [uid] } := by
  have hwin := hi.inWindow hclock
  have hseq := hi.sequence_lt h.layout.toConstructed
  have hlt : ∀ u ∈ s.returned, u.toInt < g'.currentUid.toInt := by
    intro u hu
    obtain ⟨hs, hlast, hbelow⟩ := h.below (List.ne_nil_of_mem hu)
    have hgrow := hi.currentUid_lt_of_inWindow ⟨h.layout, h.worker, hs⟩ hlast hwin
    have hle := hbelow u hu
    omega
  refine ⟨?_, ?_, ?_, fun _ => ⟨hseq, hwin, ?_⟩⟩
  · show g'.bitsAllocator.WellFormed
    rw [hi.allocator]
    exact h.layout
  · show g'.workerId.toNat < 2 ^ g'.bitsAllocator.workerWidth
    rw [hi.allocator, hi.worker]
    exact h.worker
  · refine List.pairwise_append.mpr ⟨h.sorted, List.pairwise_singleton _ _, ?_⟩
    intro u hu u' hu'
    rw [List.mem_singleton.mp hu', hi.uid_eq]
    exact hlt u hu
  · intro u hu
    rcases List.mem_append.mp hu with hu | hu
    · exact Int.le_of_lt (hlt u hu)
    · have heq := (List.mem_singleton.mp hu).trans hi.uid_eq
      exact Int.le_of_eq (congrArg BitVec.toInt heq)

theorem issued_step (h : s.Issued) (hsafe : ¬ s.generator.RunsOut clock)
    (hclock : s.generator.ReadsInWindow clock) : (s.step clock).Issued := by
  unfold step
  split
  · exact h
  · rename_i g' uid rest hcall
    exact h.returns (nextId_issues hcall) hclock
  · rename_i g' e rest hcall
    rw [eq_of_nextId_error hcall hsafe]
    exact ⟨h.layout, h.worker, h.sorted, h.below⟩

theorem Issued.nodup (h : s.Issued) : s.returned.Nodup :=
  h.sorted.imp fun hlt heq => by
    rw [heq] at hlt
    omega

theorem unchanged_step (h : s.Unchanged) (hsafe : ¬ s.generator.RunsOut clock) :
    (s.step clock).Unchanged := by
  unfold step
  split
  · exact h
  · exact h
  · rename_i g' e rest hcall
    intro p hp
    rcases List.mem_append.mp hp with hp | hp
    · exact h p hp
    · rw [List.mem_singleton.mp hp]
      exact eq_of_nextId_error hcall hsafe

theorem not_unchanged_step (hb : s.generator.bitsAllocator.WellFormed)
    (hout : s.generator.RunsOut clock) : ¬ (s.step clock).Unchanged := by
  obtain ⟨e, rest, hcall⟩ := nextId_of_runsOut hout
  obtain ⟨-, -, -, -, hwrap, -⟩ := hout
  intro h
  have hsame : ({ s.generator with sequence := 0 } : DefaultUidGenerator) = s.generator :=
    h (s.generator, _) (by simp [step, hcall])
  exact sequence_ne_zero hb hwrap (congrArg sequence hsame).symm

theorem layout_step (hb : s.generator.bitsAllocator.WellFormed)
    (hsafe : ¬ s.generator.RunsOut clock) : (s.step clock).generator.bitsAllocator.WellFormed := by
  unfold step
  split
  · exact hb
  · rename_i g' uid rest hcall
    exact (nextId_issues hcall).allocator ▸ hb
  · rename_i g' e rest hcall
    exact eq_of_nextId_error hcall hsafe ▸ hb

/-- From every state and over every list of calls: the calls that throw leave the generator
alone if and only if none of them runs out. Then no uid is returned twice either, whatever the
clock shows inside the window. -/
theorem unchanged_iff {timeBits workerBits seqBits : JInt} {b : BitsAllocator}
    (hl : ValidLayout timeBits workerBits seqBits)
    (hb : BitsAllocator.new timeBits workerBits seqBits = .ok b)
    (epochSeconds workerId sequence lastSecond : JLong) (calls : List (List JLong)) :
    (Throughout step Unchanged (start ⟨b, epochSeconds, workerId, sequence, lastSecond⟩) calls ↔
      Along step (fun s clock => ¬ s.generator.RunsOut clock)
        (start ⟨b, epochSeconds, workerId, sequence, lastSecond⟩) calls) ∧
    (0 ≤ workerId.toInt ∧ workerId.toInt ≤ b.maxWorkerId.toInt →
      Along step (fun s clock => ¬ s.generator.RunsOut clock ∧ s.generator.ReadsInWindow clock)
        (start ⟨b, epochSeconds, workerId, sequence, lastSecond⟩) calls →
      Throughout step (fun s => s.Unchanged ∧ s.returned.Nodup)
        (start ⟨b, epochSeconds, workerId, sequence, lastSecond⟩) calls) := by
  have hwf := BitsAllocator.new_wellFormed hl.fits hb
  constructor
  · refine throughout_iff_along
      (fun _ s => s.generator.bitsAllocator.WellFormed ∧ s.Unchanged) (fun _ _ h => h.2) ?_ ?_ ?_
    · intro s clock _ h hsafe
      exact ⟨layout_step h.1 hsafe, unchanged_step h.2 hsafe⟩
    · intro s clock _ h hout
      exact not_unchanged_step h.1 (not_not.mp hout)
    · exact ⟨hwf, fun p hp => by cases hp⟩
  · intro hworker halong
    have hrun := throughout_of_along (P := fun s => s.Issued ∧ s.Unchanged)
      (fun s clock h hsafe =>
        ⟨issued_step h.1 hsafe.1 hsafe.2, unchanged_step h.2 hsafe.1⟩) ?_ halong
    · exact hrun.mono fun s h => ⟨h.2, h.1.nodup⟩
    · exact ⟨issued_start hwf (BitsAllocator.worker_fits hwf hworker.1 hworker.2),
        fun p hp => by cases hp⟩

/-- The last second of a time field of forty bits, in milliseconds. -/
def lastMillis : JLong := 1100975301375000

/-- Two calls in the last second, one on a clock that went back and one past the time field. -/
theorem unchanged_iff_late :
    Throughout step (fun s => s.Unchanged ∧ s.returned.Nodup) (start twoBitSequence)
      [[lastMillis], [lastMillis - 1000], [lastMillis + 1000], [lastMillis]] :=
  (unchanged_iff twoBitProperties_valid (b := twoBitSequence.bitsAllocator) rfl
    1463673600 0 0 (-1) _).2 (by decide) (by decide +kernel)

/-- Four calls use up the last second, and the fifth one waits for a second that is past the
time field. It resets the sequence, so that the next call returns the second uid again. -/
theorem not_unchanged :
    ¬ ∀ calls : List (List JLong),
      Throughout step (fun s => s.Unchanged ∧ s.returned.Nodup) (start twoBitSequence) calls := by
  intro h
  have hrepeat : ¬ (run step (start twoBitSequence) [[lastMillis], [lastMillis], [lastMillis],
      [lastMillis], [lastMillis, lastMillis + 1000], [lastMillis]]).returned.Nodup := by
    decide +kernel
  exact hrepeat (h _).last.2

end NextIdCalls

end BigPlan.Uid
