import BigPlan.Lib.Runs
import BigPlan.Uid.CachedUidGenerator

/-!
# Lives of a cached generator

A life starts with `afterPropertiesSet`, which reads the clock once and fills the
ring, and goes on with takes and paddings in any order. The uids it has returned
and the stock of its ring are, in order, the uids that its paddings placed.
-/
namespace BigPlan.Uid

open Lib.Java Lib.Runs

inductive Call where
  | getUID
  | paddingBuffer
  deriving DecidableEq, Repr

structure Life where
  generator : CachedUidGenerator
  returned : List JLong

namespace Life

/-- One complete call; `none` is a padding that does not return. -/
def call : Option Life → Call → Option Life
  | none, _ => none
  | some l, .getUID =>
    match l.generator.getUID with
    | (generator, .ok uid) => some { generator, returned := l.returned ++ [uid] }
    | (generator, .error _) => some { l with generator }
  | some l, .paddingBuffer => l.generator.paddingBuffer.map fun generator => { l with generator }

/-- The state after `afterPropertiesSet`. -/
def begin (generator : CachedUidGenerator) : Life := { generator, returned := [] }

/-- A start with this reading of the clock and then the given calls. -/
def live (p : CachedProperties) (workerId millis : JLong) (calls : List Call) : Option Life :=
  match CachedUidGenerator.afterPropertiesSet p workerId millis with
  | some (.ok generator) => run call (some (begin generator)) calls
  | _ => none

def executor (l : Life) : BufferPaddingExecutor := l.generator.bufferPaddingExecutor

/-- What a life has returned and what its ring still holds are what was placed. -/
def Consistent (l : Life) : Prop :=
  ∃ k stock, l.generator.Working k stock ∧ l.returned ++ stock = l.executor.placed.map Prod.snd

variable {l l' : Life} {c : Call}

/-- Everything a call can do: a take leaves the executor alone, and a padding asks for
and places what the state before it says. -/
theorem call_cases (h : l.Consistent) (c : Call) : ∃ l', call (some l) c = some l' ∧
    l'.Consistent ∧ l'.generator.toDefaultUidGenerator = l.generator.toDefaultUidGenerator ∧
    (c = .getUID ∧ l'.executor = l.executor ∨
      c = .paddingBuffer ∧ l'.returned = l.returned ∧
        l'.executor =
          { running := false
            lastSecond := secondAfter l.executor.lastSecond
              (l.generator.room / 2 ^ l.generator.bitsAllocator.seqWidth)
            consumed := l.executor.consumed ++ l.generator.asked
            placed := l.executor.placed ++ l.generator.filled }) := by
  obtain ⟨k, stock, hw, hplaced⟩ := h
  cases c with
  | getUID =>
    cases stock with
    | nil =>
      obtain ⟨ringBuffer, e, hget, hrep⟩ := CachedUidGenerator.getUID_nil hw
      have hcall : call (some l) .getUID =
          some { l with generator := { l.generator with ringBuffer } } := by
        simp only [call, hget]
      exact ⟨_, hcall, ⟨k, [], ⟨hw.layout, hw.worker, hw.seq_lt, hrep, hw.idle⟩, hplaced⟩, rfl,
        Or.inl ⟨rfl, rfl⟩⟩
    | cons uid stock =>
      obtain ⟨ringBuffer, hget, hrep⟩ := CachedUidGenerator.getUID_cons hw
      have hcall : call (some l) .getUID =
          some ⟨{ l.generator with ringBuffer }, l.returned ++ [uid]⟩ := by
        simp only [call, hget]
      refine ⟨_, hcall, ⟨k, stock, ⟨hw.layout, hw.worker, hw.seq_lt, hrep, hw.idle⟩, ?_⟩, rfl,
        Or.inl ⟨rfl, rfl⟩⟩
      rw [List.append_assoc]
      exact hplaced
  | paddingBuffer =>
    obtain ⟨ringBuffer, hpad, hrep⟩ := CachedUidGenerator.paddingBuffer_spec hw
    have hcall := congrArg (Option.map fun generator => ({ l with generator } : Life)) hpad
    refine ⟨_, hcall, ⟨k, _, ⟨hw.layout, hw.worker, hw.seq_lt, hrep, rfl⟩, ?_⟩, rfl,
      Or.inr ⟨rfl, rfl, rfl⟩⟩
    rw [← List.append_assoc, hplaced, ← List.map_append]
    rfl

/-- A property of lives kept by every call holds in every run, and no run gets stuck. -/
theorem run_induction {P : Life → Prop}
    (hstep : ∀ l c l', l.Consistent → P l → call (some l) c = some l' → P l')
    (h : l.Consistent) (h0 : P l) (calls : List Call) :
    ∃ l', run call (some l) calls = some l' ∧ l'.Consistent ∧ P l' := by
  refine invariant_run (P := fun o => ∃ l', o = some l' ∧ l'.Consistent ∧ P l') ?_
    ⟨l, rfl, h, h0⟩ calls
  rintro o c ⟨l, rfl, hl, hP⟩
  obtain ⟨l', hcall, hl', _⟩ := call_cases hl c
  exact ⟨l', hcall, hl', hstep l c l' hl hP hcall⟩

/-- A generator before its first padding. -/
structure Blank (g : CachedUidGenerator) (p : CachedProperties) (workerId millis : JLong) : Prop where
  working : ∃ k, g.Working k []
  configured :
    DefaultUidGenerator.afterPropertiesSet p.toUidProperties workerId = .ok g.toDefaultUidGenerator
  executor : g.bufferPaddingExecutor = ⟨false, toSeconds millis, [], []⟩

variable {p : CachedProperties} {workerId millis : JLong} {g : CachedUidGenerator}

theorem blank_of_create (hf : Fits p.timeBits p.workerBits p.seqBits) (hw : 0 ≤ workerId.toInt)
    (hg : CachedUidGenerator.create p workerId millis = .ok g) : Blank g p workerId millis := by
  simp only [CachedUidGenerator.create] at hg
  split at hg
  · cases hg
  rename_i gd hgd
  simp only [CachedUidGenerator.newRingBuffer] at hg
  split at hg
  · cases hg
  rename_i r hr
  cases hg
  obtain ⟨hb, hmax, hworker, _⟩ := DefaultUidGenerator.afterPropertiesSet_eq hgd
  have hwf := BitsAllocator.new_wellFormed hf hb
  have hsize := CachedUidGenerator.size_of_new hwf.toConstructed hr
  have hseq : gd.bitsAllocator.seqWidth < 31 := by have := hsize.lt; omega
  obtain ⟨k, hrep⟩ := RingBuffer.new_represents hr
  refine ⟨⟨k, hwf, ?_, hseq, hrep, rfl⟩, hgd, rfl⟩
  show gd.workerId.toNat < _
  rw [hworker]
  exact BitsAllocator.worker_fits hwf hw hmax

/-- Every valid configuration whose ring size is an int is accepted. -/
theorem create_total (millis : JLong) (hl : ValidLayout p.timeBits p.workerBits p.seqBits)
    (hsize : 2 ^ p.seqBits.toNat * 2 ^ p.boostPower.toNat < 2 ^ 31)
    (hmax : workerId.toInt < (2 ^ p.workerBits.toNat : Nat)) :
    ∃ g, CachedUidGenerator.create p workerId millis = .ok g := by
  obtain ⟨_, hwlt, hslt⟩ := hl.lt
  obtain ⟨b, hb⟩ := BitsAllocator.new_of_validLayout hl
  obtain ⟨hc, _, hwb, hsb⟩ := BitsAllocator.new_constructed hb
  have hwf := BitsAllocator.new_wellFormed hl.fits hb
  have hworker : workerId.toInt ≤ b.maxWorkerId.toInt := by
    have hlt := BitsAllocator.two_pow_workerWidth_lt hwf
    have hp := Nat.two_pow_pos b.workerWidth
    have hm : b.maxWorkerId.toInt = b.maxWorkerId.toNat :=
      toInt_of_lt (by rw [hc.maxWorker]; omega)
    rw [hm, hc.maxWorker, BitsAllocator.workerWidth, hwb, Nat.mod_eq_of_lt hwlt]
    omega
  obtain ⟨gd, hgd, rfl⟩ := DefaultUidGenerator.afterPropertiesSet_total hb hworker
  have hsum : p.seqBits.toNat + p.boostPower.toNat < 31 := by
    rw [← Nat.pow_add] at hsize
    exact (Nat.pow_lt_pow_iff_right (by decide)).mp hsize
  have hS : gd.bitsAllocator.seqWidth = p.seqBits.toNat := by
    rw [BitsAllocator.seqWidth, hsb, Nat.mod_eq_of_lt hslt]
  have hring : (CachedUidGenerator.listSize gd.bitsAllocator <<< (p.boostPower.toNat % 32)).toNat =
      2 ^ (p.seqBits.toNat + p.boostPower.toNat) := by
    rw [BitVec.toNat_shiftLeft, CachedUidGenerator.toNat_listSize hc, Nat.shiftLeft_eq,
      Nat.mod_mul_mod, hS, Nat.mod_eq_of_lt (show p.boostPower.toNat < 32 by omega), ← Nat.pow_add,
      Nat.mod_eq_of_lt (Nat.pow_lt_pow_right (by decide) (by omega))]
  have hfactor : 0 < DEFAULT_PADDING_PERCENT.toInt ∧ DEFAULT_PADDING_PERCENT.toInt < 100 := by decide
  obtain ⟨r, hr⟩ := RingBuffer.new_total hsum hring hfactor
  simp only [CachedUidGenerator.create, hgd, CachedUidGenerator.newRingBuffer, hr]
  exact ⟨_, rfl⟩

theorem consistent_of_blank (h : Blank g p workerId millis) : (begin g).Consistent := by
  obtain ⟨k, hk⟩ := h.working
  refine ⟨k, [], hk, ?_⟩
  show [] = List.map Prod.snd g.bufferPaddingExecutor.placed
  rw [h.executor]
  rfl

/-- A life is a run of a created generator whose first call is a padding. -/
theorem live_eq_run (h : Blank g p workerId millis)
    (hg : CachedUidGenerator.create p workerId millis = .ok g) (calls : List Call) :
    live p workerId millis calls = run call (some (begin g)) (.paddingBuffer :: calls) := by
  obtain ⟨k, hk⟩ := h.working
  obtain ⟨ringBuffer, hpad, _⟩ := CachedUidGenerator.paddingBuffer_spec hk
  simp only [live, CachedUidGenerator.afterPropertiesSet_eq, hg, hpad, Option.map_some, run_cons,
    call, begin]

/-- A life that got under way was created. -/
theorem create_of_live {l : Life} {calls : List Call} (h : live p workerId millis calls = some l) :
    ∃ g, CachedUidGenerator.create p workerId millis = .ok g := by
  cases hg : CachedUidGenerator.create p workerId millis with
  | ok g => exact ⟨g, rfl⟩
  | error e => simp [live, CachedUidGenerator.afterPropertiesSet_eq, hg] at h

/-- What paddings keep as long as the seconds they ask for stay under a bound holds in
every run of a blank generator whose seconds stay under it. -/
theorem bounded_run {P : Life → Prop} {bound : Int} (h : Blank g p workerId millis)
    (h0 : P (begin g))
    (htake : ∀ l l' : Life, P l → l'.executor = l.executor →
      l'.generator.toDefaultUidGenerator = l.generator.toDefaultUidGenerator → P l')
    (hpad : ∀ (l l' : Life) k stock, P l → l.generator.Working k stock →
      l.generator.toDefaultUidGenerator = g.toDefaultUidGenerator →
      (∀ s ∈ l.generator.asked, s.toInt ≤ bound) →
      l'.generator.toDefaultUidGenerator = l.generator.toDefaultUidGenerator →
      l'.executor =
        { running := false
          lastSecond := secondAfter l.executor.lastSecond
            (l.generator.room / 2 ^ l.generator.bitsAllocator.seqWidth)
          consumed := l.executor.consumed ++ l.generator.asked
          placed := l.executor.placed ++ l.generator.filled } → P l')
    (calls : List Call) :
    ∃ l, run call (some (begin g)) calls = some l ∧ l.Consistent ∧
      l.generator.toDefaultUidGenerator = g.toDefaultUidGenerator ∧
      ((∀ s ∈ l.executor.consumed, s.toInt ≤ bound) → P l) := by
  refine run_induction (P := fun l => l.generator.toDefaultUidGenerator = g.toDefaultUidGenerator ∧
    ((∀ s ∈ l.executor.consumed, s.toInt ≤ bound) → P l)) ?_ (consistent_of_blank h)
    ⟨rfl, fun _ => h0⟩ calls
  rintro l c l' hl ⟨hgen, hP⟩ hcall
  obtain ⟨l'', hcall', _, hgen', hcases⟩ := call_cases hl c
  obtain rfl : l'' = l' := Option.some.inj (hcall'.symm.trans hcall)
  refine ⟨hgen'.trans hgen, fun hcons => ?_⟩
  rcases hcases with ⟨_, hex⟩ | ⟨_, _, hex⟩
  · rw [hex] at hcons
    exact htake l l'' (hP hcons) hex hgen'
  · rw [hex] at hcons
    obtain ⟨k, stock, hw, _⟩ := hl
    exact hpad l l'' k stock (hP fun s hs => hcons s (List.mem_append_left _ hs)) hw hgen
      (fun s hs => hcons s (List.mem_append_right _ hs)) hgen' hex

end Life

end BigPlan.Uid
