import BigPlan.Uid.BitsAllocator

/-!
# The uncached generator

`nextId` consumes readings of the system clock. A call throws, returns a uid or,
when it waits for the next second and the readings end, never returns. Every
issued uid packs the two volatile fields `lastSecond` and `sequence`, which only
move forward in lexicographic order.
-/
namespace BigPlan.Uid

open Lib.Java Lib.BitFields

/-- The Spring properties of `DefaultUidGenerator`, with their defaults. -/
structure UidProperties where
  timeBits : JInt := 28
  workerBits : JInt := 22
  seqBits : JInt := 13
  epochSeconds : JLong := toSeconds 1463673600000
  deriving DecidableEq, Repr

namespace UidProperties

def setTimeBits (p : UidProperties) (timeBits : JInt) : UidProperties :=
  if 0 < timeBits.toInt then { p with timeBits } else p

def setWorkerBits (p : UidProperties) (workerBits : JInt) : UidProperties :=
  if 0 < workerBits.toInt then { p with workerBits } else p

def setSeqBits (p : UidProperties) (seqBits : JInt) : UidProperties :=
  if 0 < seqBits.toInt then { p with seqBits } else p

/-- The date parser is a parameter: it yields the instant in milliseconds or throws. -/
def setEpochStr (parseByDateTimePattern : String → Except UidError JLong)
    (p : UidProperties) (epochStr : Option String) : Except UidError UidProperties :=
  match epochStr with
  | none => .ok p
  | some str =>
    if isBlank (some str) then .ok p
    else do
      let millis ← parseByDateTimePattern str
      return { p with epochSeconds := toSeconds millis }

/-- The properties that the setters let through, starting from the defaults. -/
inductive Configured (parseByDateTimePattern : String → Except UidError JLong) :
    UidProperties → Prop
  | default : Configured parseByDateTimePattern {}
  | time {p} (n : JInt) : Configured parseByDateTimePattern p →
      Configured parseByDateTimePattern (p.setTimeBits n)
  | worker {p} (n : JInt) : Configured parseByDateTimePattern p →
      Configured parseByDateTimePattern (p.setWorkerBits n)
  | seq {p} (n : JInt) : Configured parseByDateTimePattern p →
      Configured parseByDateTimePattern (p.setSeqBits n)
  | epoch {p p'} (str : Option String) : Configured parseByDateTimePattern p →
      p.setEpochStr parseByDateTimePattern str = .ok p' → Configured parseByDateTimePattern p'

end UidProperties

structure DefaultUidGenerator where
  bitsAllocator : BitsAllocator
  epochSeconds : JLong
  workerId : JLong
  sequence : JLong
  lastSecond : JLong
  deriving DecidableEq, Repr

/-- The three fields that `parseUID` cuts out of a uid. -/
@[ext]
structure ParsedUid where
  deltaSeconds : JLong
  workerId : JLong
  sequence : JLong
  deriving DecidableEq, Repr

namespace DefaultUidGenerator

/-- Only the upper bound of the assigned worker id is checked. -/
def afterPropertiesSet (p : UidProperties) (assignWorkerId : JLong) :
    Except UidError DefaultUidGenerator := do
  let bitsAllocator ← BitsAllocator.new p.timeBits p.workerBits p.seqBits
  let workerId := assignWorkerId
  if workerId.toInt > bitsAllocator.maxWorkerId.toInt then
    throw (.runtime
      s!"Worker id {workerId.toInt} exceeds the max {bitsAllocator.maxWorkerId.toInt}")
  return { bitsAllocator, epochSeconds := p.epochSeconds, workerId, sequence := 0, lastSecond := -1 }

/-- The bit extraction of `parseUID`; the text around the fields is left out. -/
def parseUID (g : DefaultUidGenerator) (uid : JLong) : ParsedUid :=
  let totalBits := BitsAllocator.TOTAL_BITS.signExtend 64
  let signBits := g.bitsAllocator.signBits.signExtend 64
  let timestampBits := g.bitsAllocator.timestampBits.signExtend 64
  let workerIdBits := g.bitsAllocator.workerIdBits.signExtend 64
  let sequenceBits := g.bitsAllocator.sequenceBits.signExtend 64
  { sequence := ushr (shl uid (totalBits - sequenceBits)) (totalBits - sequenceBits)
    workerId := ushr (shl uid (timestampBits + signBits)) (totalBits - workerIdBits)
    deltaSeconds := ushr uid (workerIdBits + sequenceBits) }

/-- `getCurrentSecond` on one reading of `System.currentTimeMillis()`. -/
def getCurrentSecond (g : DefaultUidGenerator) (millis : JLong) : Except UidError JLong :=
  let currentSecond := toSeconds millis
  if (currentSecond - g.epochSeconds).toInt > g.bitsAllocator.maxDeltaSeconds.toInt then
    .error (.uidGenerate
      s!"Timestamp bits is exhausted. Refusing UID generate. Now: {currentSecond.toInt}")
  else .ok currentSecond

/-- What a call that reads the clock ends with, and the readings it leaves;
`none` is a call that still waits when the readings are used up. -/
abbrev Outcome := Option (Except UidError JLong × List JLong)

def getNextSecond (g : DefaultUidGenerator) (lastTimestamp : JLong) : List JLong → Outcome
  | [] => none
  | millis :: clock =>
    match g.getCurrentSecond millis with
    | .error e => some (.error e, clock)
    | .ok timestamp =>
      if timestamp.toInt ≤ lastTimestamp.toInt then g.getNextSecond lastTimestamp clock
      else some (.ok timestamp, clock)

/-- The uid of the current values of the volatile fields. -/
def currentUid (g : DefaultUidGenerator) : JLong :=
  g.bitsAllocator.allocate (g.lastSecond - g.epochSeconds) g.workerId g.sequence

/-- The common end of `nextId`: `lastSecond = currentSecond`, then allocate. -/
def issue (g : DefaultUidGenerator) (currentSecond : JLong) (clock : List JLong) :
    DefaultUidGenerator × Outcome :=
  let g : DefaultUidGenerator := { g with lastSecond := currentSecond }
  (g, some (.ok g.currentUid, clock))

def nextId (g : DefaultUidGenerator) : List JLong → DefaultUidGenerator × Outcome
  | [] => (g, none)
  | millis :: clock =>
    match g.getCurrentSecond millis with
    | .error e => (g, some (.error e, clock))
    | .ok currentSecond =>
      if currentSecond.toInt < g.lastSecond.toInt then
        let refusedSeconds := g.lastSecond - currentSecond
        (g, some (.error (.uidGenerate
          s!"Clock moved backwards. Refusing for {refusedSeconds.toInt} seconds"), clock))
      else if currentSecond = g.lastSecond then
        let g : DefaultUidGenerator :=
          { g with sequence := (g.sequence + 1) &&& g.bitsAllocator.maxSequence }
        if g.sequence = 0 then
          -- the field is already reset here, also when the wait below throws
          match g.getNextSecond g.lastSecond clock with
          | some (.ok nextSecond, clock') => g.issue nextSecond clock'
          | outcome => (g, outcome)
        else g.issue currentSecond clock
      else { g with sequence := 0 }.issue currentSecond clock

/-- The results of `n` calls in a row. A call that never returns ends the list. -/
def nextIds : Nat → DefaultUidGenerator → List JLong → List (Except UidError JLong)
  | 0, _, _ => []
  | n + 1, g, clock =>
    match g.nextId clock with
    | (_, none) => []
    | (g', some (result, clock')) => result :: nextIds n g' clock'

end DefaultUidGenerator

/-- A valid layout with two sequence bits, for runs on fixed inputs. -/
def twoBitProperties : UidProperties := { timeBits := 40, workerBits := 21, seqBits := 2 }

theorem twoBitProperties_valid : ValidLayout twoBitProperties.timeBits twoBitProperties.workerBits
    twoBitProperties.seqBits := ⟨by decide, by decide, by decide, by decide⟩

/-- The generator that these properties and worker id 0 set up. -/
def twoBitSequence : DefaultUidGenerator where
  bitsAllocator := ⟨1, 40, 21, 2, 0xFFFFFFFFFF, 0x1FFFFF, 3, 23, 2⟩
  epochSeconds := 1463673600
  workerId := 0
  sequence := 0
  lastSecond := -1

theorem twoBitSequence_eq :
    DefaultUidGenerator.afterPropertiesSet twoBitProperties 0 = .ok twoBitSequence := rfl

/-- The uids among the results of a list of calls. -/
def uidsOf (results : List (Except UidError JLong)) : List JLong :=
  results.filterMap Except.toOption

namespace DefaultUidGenerator

variable {g g' : DefaultUidGenerator} {clock rest : List JLong} {uid : JLong} {e : UidError}

/-- Everything a successful `nextId` can do. -/
structure Issues (g g' : DefaultUidGenerator) (uid : JLong) (clock rest : List JLong) : Prop where
  allocator : g'.bitsAllocator = g.bitsAllocator
  epoch : g'.epochSeconds = g.epochSeconds
  worker : g'.workerId = g.workerId
  uid_eq : uid = g'.currentUid
  reading : ∃ used millis, clock = used ++ millis :: rest ∧
    g.getCurrentSecond millis = .ok g'.lastSecond
  advance : (g.lastSecond.toInt < g'.lastSecond.toInt ∧ g'.sequence = 0) ∨
    (g'.lastSecond = g.lastSecond ∧ g'.sequence ≠ 0 ∧
      g'.sequence = (g.sequence + 1) &&& g.bitsAllocator.maxSequence)

theorem getNextSecond_ok {last second : JLong}
    (h : g.getNextSecond last clock = some (.ok second, rest)) :
    last.toInt < second.toInt ∧ ∃ used millis, clock = used ++ millis :: rest ∧
      g.getCurrentSecond millis = .ok second := by
  induction clock with
  | nil => cases h
  | cons millis clock ih =>
    simp only [getNextSecond] at h
    cases hs : g.getCurrentSecond millis with
    | error e => simp [hs] at h
    | ok timestamp =>
      simp only [hs] at h
      split at h
      · obtain ⟨hlt, used, ms, rfl, hms⟩ := ih h
        exact ⟨hlt, millis :: used, ms, rfl, hms⟩
      · cases h
        exact ⟨by omega, [], millis, rfl, hs⟩

private theorem toInt_lt_of_not {x y : JLong} (h : ¬ x.toInt < y.toInt) (hne : x ≠ y) :
    y.toInt < x.toInt := by
  have : x.toInt ≠ y.toInt := fun he => hne (BitVec.eq_of_toInt_eq he)
  omega

theorem nextId_issues (h : g.nextId clock = (g', some (.ok uid, rest))) :
    Issues g g' uid clock rest := by
  cases clock with
  | nil => cases h
  | cons millis clock =>
    simp only [nextId] at h
    cases hs : g.getCurrentSecond millis with
    | error e => simp [hs] at h
    | ok currentSecond =>
      simp only [hs] at h
      split at h
      · simp at h
      · rename_i hback
        split at h
        · rename_i hsame
          split at h
          · rename_i hwrap
            split at h
            · rename_i nextSecond clock' hnext
              obtain ⟨hlt, used, ms, rfl, hms⟩ := getNextSecond_ok hnext
              cases h
              exact ⟨rfl, rfl, rfl, rfl, ⟨millis :: used, ms, rfl, hms⟩, Or.inl ⟨hlt, hwrap⟩⟩
            · rename_i outcome hno
              simp only [Prod.mk.injEq] at h
              exact absurd h.2 (hno uid rest)
          · rename_i hwrap
            cases h
            exact ⟨rfl, rfl, rfl, rfl, ⟨[], millis, rfl, hs⟩, Or.inr ⟨hsame, hwrap, rfl⟩⟩
        · rename_i hsame
          cases h
          exact ⟨rfl, rfl, rfl, rfl, ⟨[], millis, rfl, hs⟩,
            Or.inl ⟨toInt_lt_of_not hback hsame, rfl⟩⟩

end DefaultUidGenerator

end BigPlan.Uid
