import BigPlan.Uid.Life

/-!
# Order of the cached uids

A padding goes on where the last one stopped, at the beginning of the next second,
so the uids are placed in the order of (second, offset) whatever tails are dropped.
The word keeps that order for seconds between `epoch - 2^timeBits` and
`epoch + maxDeltaSeconds`.
-/
namespace BigPlan.Uid

open Lib.Java Lib.Runs Lib.Blocks

/-- A second whose distance from the epoch is held by time field and sign bit. -/
def DefaultUidGenerator.InWindow (g : DefaultUidGenerator) (second : JLong) : Prop :=
  g.epochSeconds.toInt - (2 ^ g.bitsAllocator.timeWidth : Nat) ≤ second.toInt ∧
    second.toInt < g.epochSeconds.toInt + (2 ^ g.bitsAllocator.timeWidth : Nat)

/-- The last second of the time field. -/
def DefaultUidGenerator.lastAllowed (g : DefaultUidGenerator) : Int :=
  g.epochSeconds.toInt + g.bitsAllocator.maxDeltaSeconds.toInt

/-- The first second after the start is not too far before the epoch. -/
def DefaultUidGenerator.StartsInWindow (g : DefaultUidGenerator) (start : Int) : Prop :=
  g.epochSeconds.toInt - (2 ^ g.bitsAllocator.timeWidth : Nat) ≤ start + 1 ∧ start < 2 ^ 54

namespace DefaultUidGenerator

variable {start : Int} {g : DefaultUidGenerator} {s s' : JLong} {k k' : Nat}

theorem toInt_delta_of_inWindow (hb : g.bitsAllocator.WellFormed) (h : g.InWindow s) :
    (s - g.epochSeconds).toInt = s.toInt - g.epochSeconds.toInt := by
  have hT := BitsAllocator.two_pow_timeWidth_lt hb
  obtain ⟨hlo, hhi⟩ := h
  exact toInt_sub_of_fits (by omega) (by omega)

theorem lastAllowed_eq (hb : g.bitsAllocator.WellFormed) :
    g.lastAllowed = g.epochSeconds.toInt + (2 ^ g.bitsAllocator.timeWidth : Nat) - 1 := by
  have hcast : ((2 ^ g.bitsAllocator.timeWidth : Nat) : Int) = 2 ^ g.bitsAllocator.timeWidth :=
    Int.natCast_pow 2 _
  rw [lastAllowed, BitsAllocator.toInt_maxDelta hb, hcast, Int.add_sub_assoc]

theorem lastAllowed_lt (hb : g.bitsAllocator.WellFormed) (hstart : g.StartsInWindow start) :
    g.lastAllowed < 2 ^ 63 - 1 := by
  have hT : 2 ^ g.bitsAllocator.timeWidth ≤ 2 ^ 61 := Nat.pow_le_pow_right (by decide)
    (by have := hb.total; have := hb.worker_pos; have := hb.seq_pos; omega)
  obtain ⟨h1, h2⟩ := hstart
  rw [lastAllowed_eq hb]
  omega

theorem inWindow_of_le (hb : g.bitsAllocator.WellFormed) (hstart : g.StartsInWindow start)
    (hlo : start < s.toInt) (hhi : s.toInt ≤ g.lastAllowed) : g.InWindow s := by
  obtain ⟨h1, _⟩ := hstart
  rw [lastAllowed_eq hb] at hhi
  exact ⟨by omega, by omega⟩

theorem uidAt_lt (hb : g.bitsAllocator.WellFormed)
    (hw : g.workerId.toNat < 2 ^ g.bitsAllocator.workerWidth) (hs : g.InWindow s)
    (hs' : g.InWindow s') (hk : k < 2 ^ g.bitsAllocator.seqWidth)
    (hk' : k' < 2 ^ g.bitsAllocator.seqWidth)
    (h : s.toInt < s'.toInt ∨ (s.toInt = s'.toInt ∧ k < k')) :
    (g.uidAt s k).toInt < (g.uidAt s' k').toInt := by
  have hd := toInt_delta_of_inWindow hb hs
  have hd' := toInt_delta_of_inWindow hb hs'
  have hoff := CachedUidGenerator.toNat_offset hb hk
  have hoff' := CachedUidGenerator.toNat_offset hb hk'
  obtain ⟨hlo, hhi⟩ := hs
  obtain ⟨hlo', hhi'⟩ := hs'
  rw [uidAt, uidAt, BitsAllocator.allocate_lt_allocate hb (by omega) (by omega) (by omega) (by omega)
    hw (by rw [hoff]; exact hk) (by rw [hoff']; exact hk'), hoff, hoff', hd, hd']
  omega

/-- Inside the window a uid determines its second and its sequence. -/
theorem second_unique (hb : g.bitsAllocator.WellFormed)
    (hw : g.workerId.toNat < 2 ^ g.bitsAllocator.workerWidth) {q q' : JLong} (hs : g.InWindow s)
    (hs' : g.InWindow s') (hq : q.toNat < 2 ^ g.bitsAllocator.seqWidth)
    (hq' : q'.toNat < 2 ^ g.bitsAllocator.seqWidth)
    (h : g.bitsAllocator.allocate (s - g.epochSeconds) g.workerId q =
      g.bitsAllocator.allocate (s' - g.epochSeconds) g.workerId q') : s = s' ∧ q = q' := by
  obtain ⟨hmod, hqq⟩ := BitsAllocator.allocate_inj hb hw hq hq' h
  have hn : g.bitsAllocator.timeWidth < 63 := by have := hb.total; have := hb.seq_pos; omega
  have hd := toInt_delta_of_inWindow hb hs
  have hd' := toInt_delta_of_inWindow hb hs'
  obtain ⟨hlo, hhi⟩ := hs
  obtain ⟨hlo', hhi'⟩ := hs'
  have hm := BitsAllocator.toNat_mod_of_window (d := s - g.epochSeconds) hn (by omega) (by omega)
  have hm' := BitsAllocator.toNat_mod_of_window (d := s' - g.epochSeconds) hn (by omega) (by omega)
  rw [hmod] at hm
  refine ⟨BitVec.eq_of_toInt_eq ?_, hqq⟩
  split at hm <;> split at hm' <;> omega

/-- A second of the time field and an offset are the only pair that packs to their uid. -/
theorem existsUnique_packing (hb : g.bitsAllocator.WellFormed)
    (hw : g.workerId.toNat < 2 ^ g.bitsAllocator.workerWidth) (hstart : g.StartsInWindow start)
    (hlo : start < s.toInt) (hhi : s.toInt ≤ g.lastAllowed) (hk : k < 2 ^ g.bitsAllocator.seqWidth) :
    ∃! sk : JLong × JLong, (start < sk.1.toInt ∧ sk.1.toInt ≤ g.lastAllowed) ∧
      (0 ≤ sk.2.toInt ∧ sk.2.toInt ≤ g.bitsAllocator.maxSequence.toInt) ∧
      g.uidAt s k = g.bitsAllocator.allocate (sk.1 - g.epochSeconds) g.workerId sk.2 := by
  have hoff := CachedUidGenerator.toNat_offset hb hk
  have hS : 2 ^ g.bitsAllocator.seqWidth < 2 ^ 63 :=
    Nat.pow_lt_pow_right (by decide) (by have := hb.total; have := hb.worker_pos; omega)
  have hseq : (0 : Int) ≤ (BitVec.ofNat 64 k).toInt ∧
      (BitVec.ofNat 64 k).toInt ≤ g.bitsAllocator.maxSequence.toInt := by
    have hm : g.bitsAllocator.maxSequence.toInt = g.bitsAllocator.maxSequence.toNat :=
      toInt_of_lt (by rw [hb.maxSeq]; omega)
    rw [toInt_of_lt (x := BitVec.ofNat 64 k) (by omega), hm, hb.maxSeq, hoff]
    omega
  refine ⟨(s, BitVec.ofNat 64 k), ⟨⟨hlo, hhi⟩, hseq, rfl⟩, ?_⟩
  rintro ⟨s', q⟩ ⟨⟨hlo', hhi'⟩, ⟨hq0, hq1⟩, heq⟩
  obtain ⟨rfl, rfl⟩ := second_unique hb hw (inWindow_of_le hb hstart hlo hhi)
    (inWindow_of_le hb hstart hlo' hhi') (by rw [hoff]; exact hk)
    (BitsAllocator.seq_fits hb hq0 hq1) heq
  rfl

end DefaultUidGenerator

/-- Seconds that stay under a bound count up without wrapping. -/
theorem toInt_secondAfter {last : JLong} {n : Nat} {bound : Int} (hbound : bound < 2 ^ 63 - 1)
    (hlast : last.toInt < 2 ^ 63 - 1) (h : ∀ j ≤ n, (secondAfter last j).toInt ≤ bound) (j : Nat)
    (hj : j ≤ n) : (secondAfter last j).toInt = last.toInt + 1 + j := by
  induction j with
  | zero =>
    rw [secondAfter_zero, toInt_add_one hlast]
    omega
  | succ j ih =>
    have hprev := ih (by omega)
    have hle := h j (by omega)
    have hadd : secondAfter last (j + 1) = secondAfter last j + 1 := by
      rw [secondAfter, secondAfter, BitVec.ofNat_add, ← BitVec.add_assoc]
      rfl
    rw [hadd, toInt_add_one (by omega), hprev]
    omega

namespace CachedUidGenerator

variable {g : CachedUidGenerator} {j : Nat} {p : JLong × JLong} {bound : Int}

theorem mem_asked (hj : j ≤ g.room / 2 ^ g.bitsAllocator.seqWidth) :
    secondAfter g.bufferPaddingExecutor.lastSecond j ∈ g.asked :=
  List.mem_map.mpr ⟨j, List.mem_range.mpr (by omega), rfl⟩

theorem mem_filled (hp : p ∈ g.filled) :
    ∃ j k, j ≤ g.room / 2 ^ g.bitsAllocator.seqWidth ∧ k < 2 ^ g.bitsAllocator.seqWidth ∧
      p = (secondAfter g.bufferPaddingExecutor.lastSecond j,
        g.uidAt (secondAfter g.bufferPaddingExecutor.lastSecond j) k) := by
  obtain ⟨q, hq, rfl⟩ := List.mem_map.mp hp
  exact ⟨q.1, q.2, block_le (Nat.two_pow_pos _) hq, ((mem_blocks (Nat.two_pow_pos _)).mp hq).1, rfl⟩

/-- The uids of one padding are in order when its seconds are. -/
theorem pairwise_filled (hb : g.bitsAllocator.WellFormed)
    (hw : g.workerId.toNat < 2 ^ g.bitsAllocator.workerWidth)
    (hsec : ∀ j ≤ g.room / 2 ^ g.bitsAllocator.seqWidth,
      (secondAfter g.bufferPaddingExecutor.lastSecond j).toInt =
        g.bufferPaddingExecutor.lastSecond.toInt + 1 + j ∧
      g.InWindow (secondAfter g.bufferPaddingExecutor.lastSecond j)) :
    g.filled.Pairwise fun p q => p.2.toInt < q.2.toInt := by
  have hM := Nat.two_pow_pos g.bitsAllocator.seqWidth
  rw [filled, List.pairwise_map]
  refine (pairwise_blocks _ _).imp_of_mem fun {p q} hp hq hpq => ?_
  obtain ⟨hsp, hwp⟩ := hsec _ (block_le hM hp)
  obtain ⟨hsq, hwq⟩ := hsec _ (block_le hM hq)
  refine DefaultUidGenerator.uidAt_lt hb hw hwp hwq ((mem_blocks hM).mp hp).1
    ((mem_blocks hM).mp hq).1 ?_
  rcases hpq with hlt | ⟨heq, hlt⟩
  · exact Or.inl (by omega)
  · exact Or.inr ⟨by omega, hlt⟩

end CachedUidGenerator

namespace Life

variable {l l' : Life} {start bound : Int} {p : CachedProperties} {workerId millis : JLong}
  {g : CachedUidGenerator}

/-- The seconds count up from the start without wrapping, and each placed uid packs one
of them and an offset. -/
structure Counting (l : Life) (start bound : Int) : Prop where
  start_le : start ≤ l.executor.lastSecond.toInt
  last_lt : l.executor.lastSecond.toInt < 2 ^ 63 - 1
  placed : ∀ p ∈ l.executor.placed, start < p.1.toInt ∧ p.1.toInt ≤ l.executor.lastSecond.toInt ∧
    p.1.toInt ≤ bound ∧
    ∃ k < 2 ^ l.generator.bitsAllocator.seqWidth, p.2 = l.generator.uidAt p.1 k

/-- The placed uids also grow. -/
structure Ordered (l : Life) (start bound : Int) : Prop extends Counting l start bound where
  sorted : l.executor.placed.Pairwise fun p q => p.2.toInt < q.2.toInt

theorem counting_begin (h : Blank g p workerId millis) (bound : Int) :
    Counting (begin g) (toSeconds millis).toInt bound := by
  have hb := toSeconds_bounds millis
  have hlast : (begin g).executor.lastSecond = toSeconds millis :=
    congrArg BufferPaddingExecutor.lastSecond h.executor
  have hplaced : (begin g).executor.placed = [] :=
    congrArg BufferPaddingExecutor.placed h.executor
  refine ⟨hlast ▸ Int.le_refl _, ?_, ?_⟩
  · rw [hlast]
    omega
  · simp [hplaced]

/-- The seconds of one padding. -/
theorem Counting.seconds (h : Counting l start bound) (hbound : bound < 2 ^ 63 - 1)
    (hasked : ∀ s ∈ l.generator.asked, s.toInt ≤ bound) (j : Nat)
    (hj : j ≤ l.generator.room / 2 ^ l.generator.bitsAllocator.seqWidth) :
    (secondAfter l.executor.lastSecond j).toInt = l.executor.lastSecond.toInt + 1 + j ∧
      (secondAfter l.executor.lastSecond j).toInt ≤ bound := by
  have hle : ∀ j ≤ l.generator.room / 2 ^ l.generator.bitsAllocator.seqWidth,
      (secondAfter l.executor.lastSecond j).toInt ≤ bound :=
    fun j hj => hasked _ (CachedUidGenerator.mem_asked hj)
  exact ⟨toInt_secondAfter hbound h.last_lt hle j hj, hle j hj⟩

theorem Counting.padding (h : Counting l start bound) (hbound : bound < 2 ^ 63 - 1)
    (hasked : ∀ s ∈ l.generator.asked, s.toInt ≤ bound)
    (hgen : l'.generator.toDefaultUidGenerator = l.generator.toDefaultUidGenerator)
    (hex : l'.executor =
      { running := false
        lastSecond := secondAfter l.executor.lastSecond
          (l.generator.room / 2 ^ l.generator.bitsAllocator.seqWidth)
        consumed := l.executor.consumed ++ l.generator.asked
        placed := l.executor.placed ++ l.generator.filled }) : Counting l' start bound := by
  have hsec := h.seconds hbound hasked
  obtain ⟨hlast, hle⟩ := hsec _ (Nat.le_refl _)
  have hstep := h.start_le
  have hgrow : ∀ j ≤ l.generator.room / 2 ^ l.generator.bitsAllocator.seqWidth,
      l.executor.lastSecond.toInt < (secondAfter l.executor.lastSecond j).toInt ∧
        (secondAfter l.executor.lastSecond j).toInt ≤ (secondAfter l.executor.lastSecond
          (l.generator.room / 2 ^ l.generator.bitsAllocator.seqWidth)).toInt := by
    intro j hj
    have := (hsec j hj).1
    omega
  have hmore := (hgrow _ (Nat.le_refl _)).1
  refine ⟨?_, ?_, ?_⟩ <;> rw [hex]
  · show start ≤ (secondAfter _ _).toInt
    omega
  · show (secondAfter _ _).toInt < _
    omega
  · intro p hp
    rw [hgen]
    rcases List.mem_append.mp hp with hp | hp
    · obtain ⟨h1, h2, h3, h4⟩ := h.placed p hp
      exact ⟨h1, Int.le_trans h2 (Int.le_of_lt hmore), h3, h4⟩
    · obtain ⟨j, k, hj, hk, rfl⟩ := CachedUidGenerator.mem_filled hp
      obtain ⟨h1, h2⟩ := hgrow j hj
      exact ⟨Int.lt_of_le_of_lt hstep h1, h2, (hsec j hj).2, k, hk, rfl⟩

/-- A padding goes on after the last second, so its uids come after all earlier ones. -/
theorem Ordered.sorted_append (h : Ordered l start l.generator.lastAllowed) {k : Nat}
    {stock : List JLong} (hw : l.generator.Working k stock)
    (hstart : l.generator.StartsInWindow start)
    (hasked : ∀ s ∈ l.generator.asked, s.toInt ≤ l.generator.lastAllowed) :
    (l.executor.placed ++ l.generator.filled).Pairwise fun p q => p.2.toInt < q.2.toInt := by
  have hsec := h.seconds (DefaultUidGenerator.lastAllowed_lt hw.layout hstart) hasked
  have hstep := h.start_le
  have hwin : ∀ j ≤ l.generator.room / 2 ^ l.generator.bitsAllocator.seqWidth,
      l.generator.InWindow (secondAfter l.executor.lastSecond j) := by
    intro j hj
    obtain ⟨hs, hle⟩ := hsec j hj
    exact DefaultUidGenerator.inWindow_of_le hw.layout hstart (by omega) hle
  refine List.pairwise_append.mpr ⟨h.sorted, ?_, fun p hp q hq => ?_⟩
  · exact CachedUidGenerator.pairwise_filled hw.layout hw.worker
      fun j hj => ⟨(hsec j hj).1, hwin j hj⟩
  · obtain ⟨h1, h2, h3, k, hk, hpk⟩ := h.placed p hp
    obtain ⟨j, k', hj, hk', rfl⟩ := CachedUidGenerator.mem_filled hq
    have hs := (hsec j hj).1
    rw [hpk]
    refine DefaultUidGenerator.uidAt_lt hw.layout hw.worker
      (DefaultUidGenerator.inWindow_of_le hw.layout hstart h1 h3) (hwin j hj) hk hk' (Or.inl ?_)
    show p.1.toInt < (secondAfter l.executor.lastSecond j).toInt
    omega

/-- In every run of a blank generator the seconds count up while they stay under a bound. -/
theorem counting_run (h : Blank g p workerId millis) (hbound : bound < 2 ^ 63 - 1)
    (calls : List Call) : ∃ l, run call (some (begin g)) calls = some l ∧ l.Consistent ∧
      l.generator.toDefaultUidGenerator = g.toDefaultUidGenerator ∧
      ((∀ s ∈ l.executor.consumed, s.toInt ≤ bound) →
        l.Counting (toSeconds millis).toInt bound) := by
  refine bounded_run (P := fun l => l.Counting (toSeconds millis).toInt bound) h
    (counting_begin h bound) ?_ ?_ calls
  · rintro l l' ⟨h1, h2, h3⟩ hex hgen
    refine ⟨?_, ?_, ?_⟩ <;> rw [hex]
    · exact h1
    · exact h2
    · rw [hgen]
      exact h3
  · exact fun l l' k stock hc _ _ hasked hgen hex => hc.padding hbound hasked hgen hex

/-- And their uids grow while they stay inside the time field. -/
theorem ordered_run (h : Blank g p workerId millis)
    (hstart : g.StartsInWindow (toSeconds millis).toInt) (calls : List Call) :
    ∃ l, run call (some (begin g)) calls = some l ∧ l.Consistent ∧
      l.generator.toDefaultUidGenerator = g.toDefaultUidGenerator ∧
      ((∀ s ∈ l.executor.consumed, s.toInt ≤ g.lastAllowed) →
        l.Ordered (toSeconds millis).toInt g.lastAllowed) := by
  obtain ⟨k, hk⟩ := h.working
  have hbound := DefaultUidGenerator.lastAllowed_lt hk.layout hstart
  refine bounded_run (P := fun l => l.Ordered (toSeconds millis).toInt g.lastAllowed) h
    ⟨counting_begin h _, ?_⟩ ?_ ?_ calls
  · rw [show (begin g).executor = _ from h.executor]
    exact List.Pairwise.nil
  · rintro l l' ⟨⟨h1, h2, h3⟩, h4⟩ hex hgen
    refine ⟨⟨?_, ?_, ?_⟩, ?_⟩ <;> rw [hex]
    · exact h1
    · exact h2
    · rw [hgen]
      exact h3
    · exact h4
  · intro l l' k stock ho hw hg hasked hgen hex
    refine ⟨ho.toCounting.padding hbound hasked hgen hex, ?_⟩
    rw [← hg] at ho hasked hstart
    rw [hex]
    exact ho.sorted_append hw hstart hasked

/-- Whatever is taken and padded in between, the cached uids are strictly increasing,
and each packs one second after the start and one sequence. -/
theorem cached_uids_increase (p : CachedProperties) (workerId millis : JLong)
    (hl : ValidLayout p.timeBits p.workerBits p.seqBits)
    (hsize : 2 ^ p.seqBits.toNat * 2 ^ p.boostPower.toNat < 2 ^ 31) (hw : 0 ≤ workerId.toInt)
    (hmax : workerId.toInt < (2 ^ p.workerBits.toNat : Nat))
    (hstart : p.epochSeconds.toInt - (2 ^ p.timeBits.toNat : Nat) ≤ (toSeconds millis).toInt + 1)
    (calls : List Call) :
    ∃ l, live p workerId millis calls = some l ∧
      ((∀ s ∈ l.executor.consumed, s.toInt ≤ l.generator.lastAllowed) →
        l.returned.Pairwise (fun u v => u.toInt < v.toInt) ∧
        ∀ uid ∈ l.returned, ∃! sk : JLong × JLong,
          ((toSeconds millis).toInt < sk.1.toInt ∧ sk.1.toInt ≤ l.generator.lastAllowed) ∧
          (0 ≤ sk.2.toInt ∧ sk.2.toInt ≤ l.generator.bitsAllocator.maxSequence.toInt) ∧
          uid = l.generator.bitsAllocator.allocate (sk.1 - p.epochSeconds) workerId sk.2) := by
  obtain ⟨g, hg⟩ := create_total millis hl hsize hmax
  have hblank := blank_of_create hl.fits hw hg
  have hlive := live_eq_run hblank hg calls
  obtain ⟨hnew, _, hworker, hepoch, _⟩ := DefaultUidGenerator.afterPropertiesSet_eq hblank.configured
  obtain ⟨_, htb, _, _⟩ := BitsAllocator.new_constructed hnew
  have hT : g.bitsAllocator.timeWidth = p.timeBits.toNat := by
    rw [BitsAllocator.timeWidth, htb, Nat.mod_eq_of_lt hl.lt.1]
  have hwin : g.StartsInWindow (toSeconds millis).toInt := by
    have := toSeconds_bounds millis
    refine ⟨?_, by omega⟩
    rw [hT, hepoch]
    exact hstart
  obtain ⟨l, hrun, ⟨k, stock, hwork, hplaced⟩, hgen, hord⟩ := ordered_run hblank hwin _
  refine ⟨l, hlive.trans hrun, fun hcons => ?_⟩
  rw [hgen] at hcons ⊢
  have ho := hord hcons
  have hb := hgen ▸ hwork.layout
  have hwf := hgen ▸ hwork.worker
  constructor
  · have hsorted : (l.executor.placed.map Prod.snd).Pairwise fun u v => u.toInt < v.toInt :=
      List.pairwise_map.mpr ho.sorted
    rw [← hplaced] at hsorted
    exact hsorted.sublist (List.sublist_append_left _ _)
  · intro uid huid
    have hmem : uid ∈ l.executor.placed.map Prod.snd := by
      rw [← hplaced]
      exact List.mem_append_left _ huid
    obtain ⟨q, hq, rfl⟩ := List.mem_map.mp hmem
    obtain ⟨h1, _, h3, n, hn, huid⟩ := ho.placed q hq
    rw [hgen] at hn huid
    rw [huid, ← hepoch, ← hworker]
    exact DefaultUidGenerator.existsUnique_packing hb hwf hwin h1 h3 hn

/-- Two sequence bits, and a ring for two seconds. -/
def twoSecondProperties : CachedProperties := { twoBitProperties with boostPower := 1 }

/-- Eight takes with a padding in between, which drops a second's tail. -/
def eightTakes : List Call :=
  List.replicate 3 .getUID ++ [.paddingBuffer] ++ List.replicate 5 .getUID

theorem cached_uids_increase_eightTakes :
    ∃ l, live twoSecondProperties 0 1500000000000 eightTakes = some l ∧ l.returned.length = 8 ∧
      l.returned.Pairwise fun u v => u.toInt < v.toInt := by
  obtain ⟨l, hlive, h⟩ := cached_uids_increase twoSecondProperties 0 1500000000000
    twoBitProperties_valid (by decide) (by decide) (by decide) (by decide +kernel) eightTakes
  have hrun : (live twoSecondProperties 0 1500000000000 eightTakes).map (fun l =>
      (l.returned.length, l.executor.consumed.all fun s =>
        decide (s.toInt ≤ l.generator.lastAllowed))) = some (8, true) := by decide +kernel
  rw [hlive, Option.map_some, Option.some.injEq, Prod.mk.injEq] at hrun
  exact ⟨l, hlive, hrun.1, (h (by simpa using hrun.2)).1⟩

/-- One time bit, and a clock long before the epoch. -/
def oneBitProperties : CachedProperties := { timeBits := 1, workerBits := 60, seqBits := 2, boostPower := 1 }

/-- Before the window the sign bit alternates between seconds, so the fifth uid is
smaller than the fourth. And without a bound on the second, another one that is
`2^(timeBits+1)` later packs to the same uid. -/
theorem cached_uids_wrap :
    (¬ ∀ (p : CachedProperties) (workerId millis : JLong) (calls : List Call) (l : Life),
      ValidLayout p.timeBits p.workerBits p.seqBits → 1 ≤ p.boostPower.toInt →
      2 ^ p.seqBits.toNat * 2 ^ p.boostPower.toNat < 2 ^ 31 → 0 ≤ workerId.toInt →
      workerId.toInt < (2 ^ p.workerBits.toNat : Nat) → live p workerId millis calls = some l →
      (∀ s ∈ l.executor.consumed, s.toInt ≤ l.generator.lastAllowed) →
      l.returned.Pairwise fun u v => u.toInt < v.toInt) ∧
    ¬ ∀ (p : CachedProperties) (workerId millis : JLong) (calls : List Call) (l : Life),
      ValidLayout p.timeBits p.workerBits p.seqBits → 1 ≤ p.boostPower.toInt →
      2 ^ p.seqBits.toNat * 2 ^ p.boostPower.toNat < 2 ^ 31 → 0 ≤ workerId.toInt →
      workerId.toInt < (2 ^ p.workerBits.toNat : Nat) → live p workerId millis calls = some l →
      (∀ s ∈ l.executor.consumed, s.toInt ≤ l.generator.lastAllowed) →
      ∀ uid ∈ l.returned, ∃! sk : JLong × JLong, (toSeconds millis).toInt < sk.1.toInt ∧
        (0 ≤ sk.2.toInt ∧ sk.2.toInt ≤ l.generator.bitsAllocator.maxSequence.toInt) ∧
        uid = l.generator.bitsAllocator.allocate (sk.1 - p.epochSeconds) workerId sk.2 := by
  constructor
  · intro h
    have hrun : (live oneBitProperties 0 0 (List.replicate 5 .getUID)).map (fun l =>
        (l.returned, l.executor.consumed.all fun s =>
          decide (s.toInt ≤ l.generator.lastAllowed))) =
        some ([2 ^ 62, 2 ^ 62 + 1, 2 ^ 62 + 2, 2 ^ 62 + 3, 2 ^ 63], true) := by decide +kernel
    obtain ⟨l, hlive, hl⟩ := Option.map_eq_some_iff.mp hrun
    rw [Prod.mk.injEq] at hl
    have := h oneBitProperties 0 0 _ l ⟨by decide, by decide, by decide, by decide⟩ (by decide)
      (by decide) (by decide) (by decide) hlive (by simpa using hl.2)
    rw [hl.1] at this
    exact absurd this (by decide +kernel)
  · intro h
    have hrun : (live twoSecondProperties 0 1500000000000 [.getUID]).map (fun l =>
        (l.returned, (l.generator.bitsAllocator, l.executor.consumed.all fun s =>
          decide (s.toInt ≤ l.generator.lastAllowed)))) =
        some ([twoBitSequence.uidAt 1500000001 0], (twoBitSequence.bitsAllocator, true)) := by
      decide +kernel
    obtain ⟨l, hlive, hl⟩ := Option.map_eq_some_iff.mp hrun
    rw [Prod.mk.injEq, Prod.mk.injEq] at hl
    obtain ⟨hret, hb, hall⟩ := hl
    obtain ⟨sk, _, hunique⟩ := h twoSecondProperties 0 1500000000000 _ l twoBitProperties_valid
      (by decide) (by decide) (by decide) (by decide) hlive (by simpa using hall)
      (twoBitSequence.uidAt 1500000001 0) (by simp [hret])
    rw [hb] at hunique
    have hfirst := hunique (1500000001, 0) ⟨by decide +kernel, by decide, by decide +kernel⟩
    have hsecond := hunique (1500000001 + 2 ^ 41, 0)
      ⟨by decide +kernel, by decide, by decide +kernel⟩
    exact absurd (hfirst.trans hsecond.symm) (by decide)

end Life

end BigPlan.Uid
