import BigPlan.Lib.Blocks
import BigPlan.Uid.NextIdOrder
import BigPlan.Uid.RingBuffer

/-!
# The cached generator

A padding asks for all uids of one second after another and puts them into the
ring until a put is refused. The executor's `lastSecond` is read from the clock
once, at the start, and then only counts up. Paddings and takes are complete
calls here. The executor also records, as history, the seconds it asked for and
the uids that the ring accepted.
-/
namespace BigPlan.Uid

open Lib.Java Lib.BitFields Lib.Blocks

/-- The Spring properties of `CachedUidGenerator`; the padding factor has no setter. -/
structure CachedProperties extends UidProperties where
  boostPower : JInt := 3
  deriving DecidableEq, Repr

def CachedProperties.setBoostPower (p : CachedProperties) (boostPower : JInt) :
    Except UidError CachedProperties :=
  if boostPower.toInt > 0 then .ok { p with boostPower }
  else .error (.illegalArgument "Boost power must be positive!")

structure BufferPaddingExecutor where
  running : Bool
  lastSecond : JLong
  /-- The seconds that the provider was asked for. -/
  consumed : List JLong
  /-- The uids that the ring accepted, each with its second. -/
  placed : List (JLong × JLong)
  deriving DecidableEq, Repr

namespace BufferPaddingExecutor

/-- The loop over one second's uids; it returns the accepted ones and whether a put
was refused. -/
def putAll (ringBuffer : RingBuffer) : List JLong → RingBuffer × List JLong × Bool
  | [] => (ringBuffer, [], false)
  | uid :: uidList =>
    match ringBuffer.put uid with
    | (ringBuffer, false) => (ringBuffer, [], true)
    | (ringBuffer, true) =>
      let (ringBuffer, accepted, isFullRingBuffer) := putAll ringBuffer uidList
      (ringBuffer, uid :: accepted, isFullRingBuffer)

/-- The loop of `paddingBuffer`. -/
def fill (provide : JLong → List JLong) :
    Nat → RingBuffer → BufferPaddingExecutor → Option (RingBuffer × BufferPaddingExecutor)
  | 0, _, _ => none
  | fuel + 1, ringBuffer, ex =>
    let second := ex.lastSecond + 1
    let (ringBuffer, accepted, isFullRingBuffer) := putAll ringBuffer (provide second)
    let ex : BufferPaddingExecutor :=
      { ex with
        lastSecond := second
        consumed := ex.consumed ++ [second]
        placed := ex.placed ++ accepted.map fun uid => (second, uid) }
    if isFullRingBuffer then some (ringBuffer, ex) else fill provide fuel ringBuffer ex

end BufferPaddingExecutor

structure CachedUidGenerator extends DefaultUidGenerator where
  ringBuffer : RingBuffer
  bufferPaddingExecutor : BufferPaddingExecutor

/-- `new UidGenerateException(e)` takes over the text of its cause. -/
def UidError.wrap : UidError → UidError
  | .illegalArgument message => .uidGenerate ("java.lang.IllegalArgumentException: " ++ message)
  | .runtime message => .uidGenerate ("java.lang.RuntimeException: " ++ message)
  | .uidGenerate message =>
    .uidGenerate ("com.gapache.uid.exception.UidGenerateException: " ++ message)

namespace CachedUidGenerator

/-- The number of uids of one second. A negative one, for which `new ArrayList` throws,
does not get past the size check of the ring buffer. -/
def listSize (b : BitsAllocator) : JInt := b.maxSequence.setWidth 32 + 1

def nextIdsForOneSecond (g : DefaultUidGenerator) (currentSecond : JLong) : List JLong :=
  let firstSeqUid := g.bitsAllocator.allocate (currentSecond - g.epochSeconds) g.workerId 0
  (List.range (listSize g.bitsAllocator).toInt.toNat).map fun offset =>
    firstSeqUid + BitVec.ofNat 64 offset

/-- The rounds are bounded by the size of the ring, since every second but the last one
fills a slot; `none` would be a padding that never ends. -/
def paddingBuffer (g : CachedUidGenerator) : Option CachedUidGenerator :=
  if g.bufferPaddingExecutor.running then some g
  else
    let ex : BufferPaddingExecutor := { g.bufferPaddingExecutor with running := true }
    match BufferPaddingExecutor.fill (nextIdsForOneSecond g.toDefaultUidGenerator)
      (g.ringBuffer.bufferSize.toNat + 1) g.ringBuffer ex with
    | none => none
    | some (ringBuffer, ex) =>
      some { g with ringBuffer, bufferPaddingExecutor := { ex with running := false } }

/-- `initRingBuffer` up to its padding. The clock is read once, when the executor is created. -/
def newRingBuffer (g : DefaultUidGenerator) (boostPower : JInt) (millis : JLong) :
    Except UidError CachedUidGenerator :=
  let bufferSize := listSize g.bitsAllocator <<< (boostPower.toNat % 32)
  match RingBuffer.new bufferSize DEFAULT_PADDING_PERCENT with
  | .error e => .error e
  | .ok ringBuffer =>
    let bufferPaddingExecutor : BufferPaddingExecutor :=
      { running := false, lastSecond := toSeconds millis, consumed := [], placed := [] }
    .ok { g with ringBuffer, bufferPaddingExecutor }

def initRingBuffer (g : DefaultUidGenerator) (boostPower : JInt) (millis : JLong) :
    Option (Except UidError CachedUidGenerator) :=
  match newRingBuffer g boostPower millis with
  | .error e => some (.error e)
  | .ok g => g.paddingBuffer.map .ok

/-- A generator that is set up but for its first padding. -/
def create (p : CachedProperties) (assignWorkerId millis : JLong) :
    Except UidError CachedUidGenerator :=
  match DefaultUidGenerator.afterPropertiesSet p.toUidProperties assignWorkerId with
  | .error e => .error e
  | .ok g => newRingBuffer g p.boostPower millis

def afterPropertiesSet (p : CachedProperties) (assignWorkerId millis : JLong) :
    Option (Except UidError CachedUidGenerator) :=
  match DefaultUidGenerator.afterPropertiesSet p.toUidProperties assignWorkerId with
  | .error e => some (.error e)
  | .ok g => initRingBuffer g p.boostPower millis

theorem afterPropertiesSet_eq (p : CachedProperties) (assignWorkerId millis : JLong) :
    afterPropertiesSet p assignWorkerId millis =
      match create p assignWorkerId millis with
      | .error e => some (.error e)
      | .ok g => g.paddingBuffer.map .ok := by
  unfold afterPropertiesSet create initRingBuffer
  split <;> rfl

def getUID (g : CachedUidGenerator) : CachedUidGenerator × Except UidError JLong :=
  let (ringBuffer, result) := g.ringBuffer.take
  ({ g with ringBuffer }, result.mapError UidError.wrap)

theorem toNat_listSize {b : BitsAllocator} (hc : b.Constructed) :
    (listSize b).toNat = 2 ^ b.seqWidth % 2 ^ 32 := by
  have h1 : (1 : JInt).toNat = 1 := by decide
  have hp := Nat.two_pow_pos b.seqWidth
  rw [listSize, BitVec.toNat_add, BitVec.toNat_setWidth, hc.maxSeq, h1, Nat.mod_add_mod,
    Nat.sub_add_cancel hp]

/-- The sizes that the ring buffer accepts are those of an int without overflow. -/
theorem size_of_new {b : BitsAllocator} (hc : b.Constructed) {m : Nat} {paddingFactor : JInt}
    {r : RingBuffer} (hr : RingBuffer.new (listSize b <<< m) paddingFactor = .ok r) :
    r.Sized (b.seqWidth + m) := by
  obtain ⟨⟨k, hk⟩, hsize, _⟩ := RingBuffer.new_eq hr
  have hn : r.bufferSize.toNat = 2 ^ (b.seqWidth + m) % 2 ^ 32 := by
    rw [hsize, BitVec.toNat_shiftLeft, toNat_listSize hc, Nat.shiftLeft_eq, Nat.mod_mul_mod,
      Nat.pow_add]
  rw [hk.size] at hn
  have hp := Nat.two_pow_pos k
  rcases Nat.lt_or_ge (b.seqWidth + m) 32 with hlt | hge
  · rw [Nat.mod_eq_of_lt (Nat.pow_lt_pow_right (by decide) hlt)] at hn
    exact Nat.pow_right_injective (le_refl 2) hn ▸ hk
  · rw [Nat.mod_eq_zero_of_dvd (Nat.pow_dvd_pow 2 hge)] at hn
    omega

end CachedUidGenerator

/-- The second of the `j`-th block of a padding that starts after `last`. -/
def secondAfter (last : JLong) (j : Nat) : JLong := last + 1 + BitVec.ofNat 64 j

theorem secondAfter_zero (last : JLong) : secondAfter last 0 = last + 1 := BitVec.add_zero _

theorem secondAfter_succ (last : JLong) (j : Nat) :
    secondAfter last (j + 1) = secondAfter (last + 1) j := by
  rw [secondAfter, secondAfter, BitVec.ofNat_add, ← BitVec.add_assoc, BitVec.add_assoc (last + 1),
    BitVec.add_comm (BitVec.ofNat 64 j), ← BitVec.add_assoc]
  rfl

namespace BufferPaddingExecutor

variable {r : RingBuffer} {k M : Nat} {stock : List JLong}

theorem capacity_of_cursor {r r' : RingBuffer} {stock stock' : List JLong}
    (h : r.Represents k stock) (h' : r'.Represents k stock') (hc : r'.cursor = r.cursor) :
    r'.capacity = r.capacity := by
  rw [h.capacity_eq, h'.capacity_eq, hc]

/-- A second's uids enter the ring in order until it is full. -/
theorem putAll_spec (h : r.Represents k stock) (uids : List JLong) :
    ∃ r', putAll r uids = (r', uids.take (r.capacity - stock.length),
        decide (r.capacity - stock.length < uids.length)) ∧
      r'.Represents k (stock ++ uids.take (r.capacity - stock.length)) ∧ r'.cursor = r.cursor := by
  induction uids generalizing r stock with
  | nil => exact ⟨r, by simp [putAll], by simpa using h, rfl⟩
  | cons uid uids ih =>
    have hfits := h.fits
    rcases Nat.eq_or_lt_of_le hfits with hfull | hroom
    · rw [show r.capacity - stock.length = 0 by omega]
      refine ⟨r, ?_, by simpa using h, rfl⟩
      simp [putAll, RingBuffer.put_of_full h hfull]
    · obtain ⟨r₁, hput, h₁, hc₁⟩ := RingBuffer.put_of_room h hroom uid
      obtain ⟨r₂, hrest, h₂, hc₂⟩ := ih h₁
      have hcap := capacity_of_cursor h h₁ hc₁
      obtain ⟨n, hn⟩ : ∃ n, r.capacity - stock.length = n + 1 := ⟨_, (Nat.sub_add_cancel (by omega)).symm⟩
      have hn' : r₁.capacity - (stock ++ [uid]).length = n := by
        rw [hcap, List.length_append, List.length_singleton]
        omega
      rw [hn'] at hrest h₂
      rw [hn]
      refine ⟨r₂, ?_, by simpa using h₂, hc₂.trans hc₁⟩
      simp [putAll, hput, hrest]

/-- Everything one padding does. With `room` free places and `M` uids a second it asks
for `room / M + 1` seconds, places the first `room` of their uids and drops the rest. -/
theorem fill_spec {provide : JLong → List JLong} {u : JLong → Nat → JLong} (hM : 0 < M)
    (hprovide : ∀ second, provide second = (List.range M).map (u second)) (fuel : Nat)
    (ex : BufferPaddingExecutor) (h : r.Represents k stock) {room : Nat}
    (hroom : r.capacity - stock.length = room) (hfuel : room / M < fuel) :
    ∃ r', fill provide fuel r ex = some (r',
        { ex with
          lastSecond := secondAfter ex.lastSecond (room / M)
          consumed := ex.consumed ++ (List.range (room / M + 1)).map (secondAfter ex.lastSecond)
          placed := ex.placed ++ (blocks M room).map fun p =>
            (secondAfter ex.lastSecond p.1, u (secondAfter ex.lastSecond p.1) p.2) }) ∧
      r'.Represents k (stock ++
        (blocks M room).map fun p => u (secondAfter ex.lastSecond p.1) p.2) ∧
      r'.cursor = r.cursor := by
  induction fuel generalizing r stock ex room with
  | zero => exact absurd hfuel (Nat.not_lt_zero _)
  | succ fuel ih =>
    obtain ⟨r₁, hput, h₁, hc₁⟩ := putAll_spec h (provide (ex.lastSecond + 1))
    rw [hroom, hprovide, ← List.map_take, List.take_range] at h₁
    rw [hroom, hprovide, ← List.map_take, List.take_range, List.length_map, List.length_range]
      at hput
    simp only [fill]
    rw [hprovide, hput]
    rcases Nat.lt_or_ge room M with hlt | hge
    · -- the ring fills up inside this second
      rw [Nat.min_eq_left hlt.le] at h₁ ⊢
      simp only [hlt, decide_true, if_true, Nat.div_eq_of_lt hlt, blocks_of_le hlt.le]
      refine ⟨r₁, ?_, ?_, hc₁⟩
      · simp [secondAfter_zero, Function.comp_def]
      · simpa [secondAfter_zero, Function.comp_def] using h₁
    · -- the whole second fits, and the loop goes on with the next one
      obtain ⟨rest, rfl⟩ : ∃ rest, room = M + rest := ⟨room - M, by omega⟩
      rw [Nat.add_div_left _ hM] at hfuel ⊢
      rw [Nat.min_eq_right hge] at h₁ ⊢
      have hrest : r₁.capacity -
          (stock ++ (List.range M).map (u (ex.lastSecond + 1))).length = rest := by
        rw [capacity_of_cursor h h₁ hc₁, List.length_append, List.length_map, List.length_range]
        omega
      simp only [show ¬ M + rest < M by omega, decide_false, Bool.false_eq_true, if_false]
      obtain ⟨r₂, hfill, h₂, hc₂⟩ := ih
        { ex with
          lastSecond := ex.lastSecond + 1
          consumed := ex.consumed ++ [ex.lastSecond + 1]
          placed := ex.placed ++ ((List.range M).map (u (ex.lastSecond + 1))).map
            fun uid => (ex.lastSecond + 1, uid) } h₁ hrest (by omega)
      refine ⟨r₂, hfill.trans ?_, ?_, hc₂.trans hc₁⟩
      · rw [blocks_add hM, List.range_succ_eq_map (n := rest / M + 1)]
        simp [secondAfter_zero, secondAfter_succ, Function.comp_def]
      · rw [blocks_add hM]
        simpa [secondAfter_zero, secondAfter_succ, Function.comp_def] using h₂

end BufferPaddingExecutor

/-- The uid that packs an offset into the sequence field. -/
def DefaultUidGenerator.uidAt (g : DefaultUidGenerator) (second : JLong) (offset : Nat) : JLong :=
  g.bitsAllocator.allocate (second - g.epochSeconds) g.workerId (BitVec.ofNat 64 offset)

namespace CachedUidGenerator

variable {k : Nat} {stock : List JLong}

theorem toNat_offset {b : BitsAllocator} (hb : b.WellFormed) {offset : Nat}
    (ho : offset < 2 ^ b.seqWidth) : (BitVec.ofNat 64 offset).toNat = offset := by
  have hle : 2 ^ b.seqWidth < 2 ^ 64 :=
    Nat.pow_lt_pow_right (by decide) (by have := hb.total; omega)
  rw [BitVec.toNat_ofNat, Nat.mod_eq_of_lt (by omega)]

/-- Adding an offset to the first uid of a second packs it into the sequence field. -/
theorem nextIdsForOneSecond_eq {g : DefaultUidGenerator} (hb : g.bitsAllocator.WellFormed)
    (hw : g.workerId.toNat < 2 ^ g.bitsAllocator.workerWidth) (hs : g.bitsAllocator.seqWidth < 31)
    (second : JLong) :
    nextIdsForOneSecond g second =
      (List.range (2 ^ g.bitsAllocator.seqWidth)).map (g.uidAt second) := by
  have hlt : 2 ^ g.bitsAllocator.seqWidth < 2 ^ 31 := Nat.pow_lt_pow_right (by decide) hs
  have hsize := toNat_listSize hb.toConstructed
  rw [Nat.mod_eq_of_lt (by omega)] at hsize
  have hint : (listSize g.bitsAllocator).toInt.toNat = 2 ^ g.bitsAllocator.seqWidth := by
    rw [BitVec.toInt_eq_toNat_cond, if_pos (by omega), hsize]
    rfl
  rw [nextIdsForOneSecond, hint]
  refine List.map_congr_left fun offset ho => BitVec.eq_of_toNat_eq ?_
  have ho := List.mem_range.mp ho
  have hoff := toNat_offset hb ho
  have hzero : (0 : JLong).toNat = 0 := rfl
  have hmax := (g.uidAt second offset).isLt
  rw [DefaultUidGenerator.uidAt, BitsAllocator.toNat_allocate hb _ hw (by rw [hoff]; exact ho),
    hoff] at hmax ⊢
  rw [BitVec.toNat_add, BitsAllocator.toNat_allocate hb _ hw (Nat.two_pow_pos _), hoff, hzero]
  unfold join at hmax ⊢
  rw [Nat.mod_eq_of_lt (by omega)]
  omega

/-- A generator between two calls: its ring holds the stock and no padding is running. -/
structure Working (g : CachedUidGenerator) (k : Nat) (stock : List JLong) : Prop where
  layout : g.bitsAllocator.WellFormed
  worker : g.workerId.toNat < 2 ^ g.bitsAllocator.workerWidth
  seq_lt : g.bitsAllocator.seqWidth < 31
  ring : g.ringBuffer.Represents k stock
  idle : g.bufferPaddingExecutor.running = false

/-- How many uids the ring still accepts. -/
def room (g : CachedUidGenerator) : Nat :=
  g.ringBuffer.capacity - (g.ringBuffer.tail - g.ringBuffer.cursor).toNat

/-- The seconds that the next padding asks for. -/
def asked (g : CachedUidGenerator) : List JLong :=
  (List.range (g.room / 2 ^ g.bitsAllocator.seqWidth + 1)).map
    (secondAfter g.bufferPaddingExecutor.lastSecond)

/-- The uids that the next padding places, with their seconds. -/
def filled (g : CachedUidGenerator) : List (JLong × JLong) :=
  (blocks (2 ^ g.bitsAllocator.seqWidth) g.room).map fun p =>
    (secondAfter g.bufferPaddingExecutor.lastSecond p.1,
      g.uidAt (secondAfter g.bufferPaddingExecutor.lastSecond p.1) p.2)

theorem Working.room_eq {g : CachedUidGenerator} (h : g.Working k stock) :
    g.ringBuffer.capacity - stock.length = g.room := by
  have := h.ring.tail_eq
  rw [room]
  omega

/-- A padding always ends, and this is all it does. -/
theorem paddingBuffer_spec {g : CachedUidGenerator} (h : g.Working k stock) :
    ∃ ringBuffer,
      g.paddingBuffer = some { g with
        ringBuffer
        bufferPaddingExecutor :=
          { running := false
            lastSecond := secondAfter g.bufferPaddingExecutor.lastSecond
              (g.room / 2 ^ g.bitsAllocator.seqWidth)
            consumed := g.bufferPaddingExecutor.consumed ++ g.asked
            placed := g.bufferPaddingExecutor.placed ++ g.filled } } ∧
      ringBuffer.Represents k (stock ++ g.filled.map Prod.snd) := by
  have hroom := h.room_eq
  have hfuel : g.room / 2 ^ g.bitsAllocator.seqWidth < g.ringBuffer.bufferSize.toNat + 1 := by
    have hle := Nat.div_le_self g.room (2 ^ g.bitsAllocator.seqWidth)
    have hcap : g.ringBuffer.capacity ≤ g.ringBuffer.bufferSize.toNat := by
      unfold RingBuffer.capacity
      split <;> omega
    omega
  obtain ⟨ringBuffer, hfill, hrep, _⟩ := BufferPaddingExecutor.fill_spec (Nat.two_pow_pos _)
    (nextIdsForOneSecond_eq h.layout h.worker h.seq_lt) _
    { g.bufferPaddingExecutor with running := true } h.ring hroom hfuel
  refine ⟨ringBuffer, ?_, ?_⟩
  · simp only [paddingBuffer, h.idle, Bool.false_eq_true, if_false, hfill]
    rfl
  · rw [filled, List.map_map]
    exact hrep

theorem getUID_cons {g : CachedUidGenerator} {uid : JLong} (h : g.Working k (uid :: stock)) :
    ∃ ringBuffer, g.getUID = ({ g with ringBuffer }, .ok uid) ∧
      ringBuffer.Represents k stock := by
  obtain ⟨ringBuffer, htake, hrep, _⟩ := RingBuffer.take_cons h.ring
  exact ⟨ringBuffer, by simp [getUID, htake, Except.mapError], hrep⟩

theorem getUID_nil {g : CachedUidGenerator} (h : g.Working k []) :
    ∃ ringBuffer e, g.getUID = ({ g with ringBuffer }, .error e) ∧
      ringBuffer.Represents k [] := by
  obtain ⟨ringBuffer, e, htake, hrep, _⟩ := RingBuffer.take_nil h.ring
  exact ⟨ringBuffer, e.wrap, by simp [getUID, htake, Except.mapError], hrep⟩

end CachedUidGenerator

end BigPlan.Uid
