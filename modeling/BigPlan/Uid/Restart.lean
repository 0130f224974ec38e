import BigPlan.Uid.CachedOrder

/-!
# Two lives with one worker id

The position of the padding executor is lost in a restart, while the worker id is
configured and stays. The second life repeats no uid if it starts no earlier than the
seconds of the uids that the first one handed out, which may lie in the future of the
first life's clock.
-/
namespace BigPlan.Uid.Life

open Lib.Java Lib.Runs

/-- The seconds that the returned uids were generated for. -/
def handedOut (l : Life) : List JLong :=
  (l.executor.placed.take l.returned.length).map Prod.fst

variable {l : Life} {p : CachedProperties} {workerId millis : JLong} {bound : Int}

theorem mem_returned (h : l.Consistent) {uid : JLong} (hu : uid ∈ l.returned) :
    ∃ q ∈ l.executor.placed, q.2 = uid ∧ q.1 ∈ l.handedOut := by
  obtain ⟨k, stock, _, hplaced⟩ := h
  have htake : l.returned = (l.executor.placed.take l.returned.length).map Prod.snd := by
    rw [List.map_take, ← hplaced, List.take_left]
  rw [htake] at hu
  obtain ⟨q, hq, rfl⟩ := List.mem_map.mp hu
  exact ⟨q, List.mem_of_mem_take hq, rfl, List.mem_map_of_mem hq⟩

/-- Seconds that the time field cannot tell apart are a multiple of its range apart. -/
theorem dvd_sub_of_delta_mod {s s' e : JLong} {n : Nat} (hn : n ≤ 64)
    (h : (s - e).toNat % 2 ^ n = (s' - e).toNat % 2 ^ n) :
    ((2 ^ n : Nat) : Int) ∣ s'.toInt - s.toInt := by
  have hs := BitVec.toInt_eq_toNat_cond s
  have hs' := BitVec.toInt_eq_toNat_cond s'
  have hd := BitVec.toNat_sub s e
  have hd' := BitVec.toNat_sub s' e
  have := e.isLt
  have := s.isLt
  have := s'.isLt
  have hword : (2 ^ 64 : Int) ∣ s'.toInt - s.toInt - ((s' - e).toNat - (s - e).toNat) := by
    apply Int.dvd_of_emod_eq_zero
    split at hs <;> split at hs' <;> omega
  have hfield : ((2 ^ n : Nat) : Int) ∣ ((s' - e).toNat : Int) - (s - e).toNat := by
    apply Int.dvd_of_emod_eq_zero
    rw [← Int.emod_eq_emod_iff_emod_sub_eq_zero, ← Int.natCast_mod, ← Int.natCast_mod, h]
  have hpow : ((2 ^ n : Nat) : Int) ∣ 2 ^ 64 := by
    exact_mod_cast Nat.pow_dvd_pow 2 hn
  have hsum := Int.dvd_add (Int.dvd_trans hpow hword) hfield
  rwa [Int.sub_add_cancel] at hsum

/-- The bound that keeps seconds apart in the time field and sign bit, counted from a start. -/
def horizon (p : CachedProperties) (millis : JLong) : Int :=
  (toSeconds millis).toInt + (2 ^ (p.timeBits.toNat + 1) : Nat)

/-- The uids that a life has returned, with the seconds they were generated for. -/
theorem returned_uidAt {calls : List Call} (hl : ValidLayout p.timeBits p.workerBits p.seqBits)
    (hw : 0 ≤ workerId.toInt) (h : live p workerId millis calls = some l)
    (hbound : bound < 2 ^ 63 - 1) (hcons : ∀ s ∈ l.executor.consumed, s.toInt ≤ bound) :
    ∃ g, DefaultUidGenerator.afterPropertiesSet p.toUidProperties workerId = .ok g ∧
      ∀ uid ∈ l.returned, ∃ s ∈ l.handedOut, ∃ k < 2 ^ g.bitsAllocator.seqWidth,
        (toSeconds millis).toInt < s.toInt ∧ s.toInt ≤ bound ∧ uid = g.uidAt s k := by
  obtain ⟨g, hg⟩ := create_of_live h
  have hblank := blank_of_create hl.fits hw hg
  obtain ⟨l', hrun, hcons', hgen, hcount⟩ := counting_run hblank hbound (.paddingBuffer :: calls)
  obtain rfl : l = l' := Option.some.inj (h.symm.trans ((live_eq_run hblank hg calls).trans hrun))
  refine ⟨g.toDefaultUidGenerator, hblank.configured, fun uid hu => ?_⟩
  obtain ⟨q, hq, rfl, hout⟩ := mem_returned hcons' hu
  obtain ⟨h1, _, h3, k, hk, huid⟩ := (hcount hcons).placed q hq
  rw [hgen] at hk huid
  exact ⟨q.1, hout, k, hk, h1, h3, huid⟩

/-- Two lives of one configuration return different uids if the second one starts no
earlier than the seconds handed out by the first, and the time field tells their
seconds apart. -/
theorem restart_disjoint (p : CachedProperties) (workerId millis millis' : JLong)
    (calls calls' : List Call) {l l' : Life}
    (hl : ValidLayout p.timeBits p.workerBits p.seqBits) (hw : 0 ≤ workerId.toInt)
    (h : live p workerId millis calls = some l) (h' : live p workerId millis' calls' = some l')
    (hstart : ∀ s ∈ l.handedOut, s.toInt ≤ (toSeconds millis').toInt)
    (hcons : ∀ s ∈ l.executor.consumed, s.toInt ≤ horizon p millis)
    (hcons' : ∀ s ∈ l'.executor.consumed, s.toInt ≤ horizon p millis) :
    ∀ uid ∈ l.returned, uid ∉ l'.returned := by
  have hn : p.timeBits.toNat + 1 ≤ 62 := by
    have hw := hl.fits.worker_pos
    have hs := hl.fits.seq_pos
    have htot := hl.fits.total
    have hlt := hl.lt
    omega
  have hbound : horizon p millis < 2 ^ 63 - 1 := by
    have := toSeconds_bounds millis
    have hpow : 2 ^ (p.timeBits.toNat + 1) ≤ 2 ^ 62 := Nat.pow_le_pow_right (by decide) hn
    unfold horizon
    omega
  obtain ⟨g, hg, hfirst⟩ := returned_uidAt hl hw h hbound hcons
  obtain ⟨g', hg', hsecond⟩ := returned_uidAt hl hw h' hbound hcons'
  obtain rfl : g = g' := Except.ok.inj (hg.symm.trans hg')
  obtain ⟨hnew, hmax, hworker, _⟩ := DefaultUidGenerator.afterPropertiesSet_eq hg
  obtain ⟨_, htb, _, _⟩ := BitsAllocator.new_constructed hnew
  have hb := BitsAllocator.new_wellFormed hl.fits hnew
  have hT : g.bitsAllocator.timeWidth = p.timeBits.toNat := by
    rw [BitsAllocator.timeWidth, htb, Nat.mod_eq_of_lt hl.lt.1]
  intro uid hu hu'
  obtain ⟨s, hout, k, hk, hlo, _, rfl⟩ := hfirst uid hu
  obtain ⟨s', _, k', hk', hlo', hhi', heq⟩ := hsecond _ hu'
  have hs := hstart s hout
  obtain ⟨hmod, _⟩ := BitsAllocator.allocate_inj hb
    (hworker ▸ BitsAllocator.worker_fits hb hw hmax)
    (by rw [CachedUidGenerator.toNat_offset hb hk]; exact hk)
    (by rw [CachedUidGenerator.toNat_offset hb hk']; exact hk') heq
  rw [hT] at hmod
  have hdvd := Int.le_of_dvd (by omega) (dvd_sub_of_delta_mod (by omega) hmod)
  unfold horizon at hhi'
  omega

/-- A second life that starts ten seconds later. -/
theorem restart_disjoint_later : ∃ l l',
    live twoSecondProperties 0 1500000000000 (List.replicate 5 .getUID) = some l ∧
      live twoSecondProperties 0 1500000010000 (List.replicate 5 .getUID) = some l' ∧
      l.returned.length = 5 ∧ l'.returned.length = 5 ∧ ∀ uid ∈ l.returned, uid ∉ l'.returned := by
  have hrun : (live twoSecondProperties 0 1500000000000 (List.replicate 5 .getUID)).map (fun l =>
      (l.returned.length, l.handedOut.all fun s => decide (s.toInt ≤ 1500000010),
        l.executor.consumed.all fun s => decide
          (s.toInt ≤ horizon twoSecondProperties 1500000000000))) = some (5, true, true) := by
    decide +kernel
  have hrun' : (live twoSecondProperties 0 1500000010000 (List.replicate 5 .getUID)).map (fun l =>
      (l.returned.length, l.executor.consumed.all fun s => decide
        (s.toInt ≤ horizon twoSecondProperties 1500000000000))) = some (5, true) := by
    decide +kernel
  obtain ⟨l, h, hl⟩ := Option.map_eq_some_iff.mp hrun
  obtain ⟨l', h', hl'⟩ := Option.map_eq_some_iff.mp hrun'
  simp only [Prod.mk.injEq] at hl hl'
  have hclock : (toSeconds 1500000010000).toInt = 1500000010 := by decide +kernel
  refine ⟨l, l', h, h', hl.1, hl'.1, restart_disjoint twoSecondProperties 0 1500000000000
    1500000010000 _ _ twoBitProperties_valid (by decide) h h' ?_ (by simpa using hl.2.2)
    (by simpa using hl'.2)⟩
  rw [hclock]
  simpa using hl.2.1

/-- The first life runs within one second of the clock and hands out a uid of the second
after the next one, with which the second life begins. -/
theorem restart_repeats :
    ¬ ∀ (p : CachedProperties) (workerId millis lastClock millis' : JLong)
      (calls calls' : List Call) (l l' : Life), ValidLayout p.timeBits p.workerBits p.seqBits →
      0 ≤ workerId.toInt → workerId.toInt < (2 ^ p.workerBits.toNat : Nat) →
      live p workerId millis calls = some l → live p workerId millis' calls' = some l' →
      (toSeconds millis).toInt ≤ lastClock.toInt → lastClock.toInt < (toSeconds millis').toInt →
      ∀ uid ∈ l.returned, uid ∉ l'.returned := by
  intro h
  have hrun : (live twoSecondProperties 0 1500000000000 (List.replicate 5 .getUID)).map
      (fun l => l.returned.contains (twoBitSequence.uidAt 1500000002 0)) = some true := by
    decide +kernel
  have hrun' : (live twoSecondProperties 0 1500000001000 [.getUID]).map
      (fun l => l.returned.contains (twoBitSequence.uidAt 1500000002 0)) = some true := by
    decide +kernel
  obtain ⟨l, hl, hmem⟩ := Option.map_eq_some_iff.mp hrun
  obtain ⟨l', hl', hmem'⟩ := Option.map_eq_some_iff.mp hrun'
  exact h twoSecondProperties 0 1500000000000 1500000000 1500000001000 _ _ l l'
    twoBitProperties_valid (by decide) (by decide) hl hl' (by decide +kernel) (by decide +kernel) _
    (List.contains_iff_mem.mp hmem) (List.contains_iff_mem.mp hmem')

end BigPlan.Uid.Life
