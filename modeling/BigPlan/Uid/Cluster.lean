import BigPlan.Uid.CachedOrder
import BigPlan.Uid.FieldRoundTrip
import Mathlib.Data.List.Nodup

/-!
# Uids of a cluster

The nodes of a cluster share the layout of the uids and the epoch. Each one has the worker id of its
configuration, which is 0 if nothing is configured, and runs a plain or a cached generator.
-/
namespace BigPlan.Uid

open Lib.Java Lib.BitFields Lib.Blocks Lib.Runs

/-- What a node does with its generator after it has been set up. -/
inductive Work where
  /-- `DefaultUidGenerator` makes this many calls while the clock reads these values. -/
  | plain (n : Nat) (clock : List JLong)
  /-- `CachedUidGenerator` reads the clock once. -/
  | cached (millis : JLong) (calls : List Call)

structure Node where
  workerId : JLong
  work : Work

/-- The uids that a node returns. One that cannot be set up returns none. -/
def Node.uids (p : CachedProperties) (node : Node) : List JLong :=
  match node.work with
  | .plain n clock =>
    match DefaultUidGenerator.afterPropertiesSet p.toUidProperties node.workerId with
    | .ok g => uidsOf (g.nextIds n clock)
    | .error _ => []
  | .cached millis calls =>
    match Life.live p node.workerId millis calls with
    | some l => l.returned
    | none => []

/-- No clock reads a time in the second before 1970, which `lastSecond` starts with. -/
def Node.Dated (node : Node) : Prop :=
  match node.work with
  | .plain _ clock => ∀ millis ∈ clock, toSeconds millis ≠ -1
  | .cached _ _ => True

/-! ## The first uid of a second -/

variable {b : BitsAllocator} {d d' k k' q q' : JLong}

/-- With each uid there is the one of the same time with sequence 0. -/
def Opened (b : BitsAllocator) (k : JLong) (uids : List JLong) : Prop :=
  ∀ uid ∈ uids, ∃ d q : JLong, q.toNat < 2 ^ b.seqWidth ∧ uid = b.allocate d k q ∧
    b.allocate d k 0 ∈ uids

theorem Opened.append {l m : List JLong} (hl : Opened b k l) (hm : Opened b k m) :
    Opened b k (l ++ m) := by
  intro uid huid
  obtain hmem | hmem := List.mem_append.mp huid
  · obtain ⟨d, q, hq, heq, hfirst⟩ := hl uid hmem
    exact ⟨d, q, hq, heq, List.mem_append_left m hfirst⟩
  · obtain ⟨d, q, hq, heq, hfirst⟩ := hm uid hmem
    exact ⟨d, q, hq, heq, List.mem_append_right l hfirst⟩

namespace DefaultUidGenerator

variable {g g' : DefaultUidGenerator} {clock rest : List JLong} {uid : JLong} {e : UidError}

theorem getNextSecond_rest {last : JLong} {result : Except UidError JLong}
    (h : g.getNextSecond last clock = some (result, rest)) : rest ⊆ clock := by
  induction clock with
  | nil => cases h
  | cons millis clock ih =>
    rw [getNextSecond] at h
    split at h
    · cases h
      exact List.subset_cons_self millis rest
    · split at h
      · exact List.subset_cons_of_subset millis (ih h)
      · cases h
        exact List.subset_cons_self millis rest

theorem nextId_rest (h : g.nextId clock = (g', some (.error e, rest))) : rest ⊆ clock := by
  cases clock with
  | nil => cases h
  | cons millis clock =>
    rw [nextId] at h
    split at h
    · cases h
      exact List.subset_cons_self millis rest
    · split at h
      · cases h
        exact List.subset_cons_self millis rest
      · simp only at h
        split at h
        · split at h
          · split at h
            · cases h
            · exact List.subset_cons_of_subset millis (getNextSecond_rest (Prod.ext_iff.mp h).2)
          · cases h
        · cases h

/-- The first uid of a second has sequence 0, and one with another sequence has the same second as
the one before it. -/
theorem nextIds_opens (n : Nat) (hg : g.Ready) : ∀ uid ∈ uidsOf (g.nextIds n clock), ∃ s q : JLong,
    q.toNat < 2 ^ g.bitsAllocator.seqWidth ∧
    uid = g.bitsAllocator.allocate (s - g.epochSeconds) g.workerId q ∧
    (∃ millis ∈ clock, s = toSeconds millis) ∧
    (g.bitsAllocator.allocate (s - g.epochSeconds) g.workerId 0 ∈ uidsOf (g.nextIds n clock) ∨
      s = g.lastSecond) := by
  induction n generalizing g clock with
  | zero => exact fun uid huid => absurd huid List.not_mem_nil
  | succ n ih =>
    rw [nextIds]
    split
    · exact fun uid huid => absurd huid List.not_mem_nil
    next g' result clock' hcall =>
    cases result with
    | error e =>
      have hrest : clock' ⊆ clock := nextId_rest hcall
      intro uid huid
      obtain rfl | rfl := nextId_config hcall
      · obtain ⟨s, q, hq, heq, ⟨millis, hmem, hs⟩, hfirst⟩ := ih hg uid huid
        exact ⟨s, q, hq, heq, ⟨millis, hrest hmem, hs⟩, hfirst⟩
      · have hzero : ({ g with sequence := 0 } : DefaultUidGenerator).Ready :=
          ⟨hg.layout, hg.worker, Nat.two_pow_pos _⟩
        obtain ⟨s, q, hq, heq, ⟨millis, hmem, hs⟩, hfirst⟩ := ih hzero uid huid
        exact ⟨s, q, hq, heq, ⟨millis, hrest hmem, hs⟩, hfirst⟩
    | ok uid₁ =>
      have hi : Issues g g' uid₁ clock clock' := nextId_issues hcall
      have hg' := hi.ready hg
      obtain ⟨used, millis₁, hclock, hreading⟩ := hi.reading
      have huid₁ : uid₁ = g.bitsAllocator.allocate (g'.lastSecond - g.epochSeconds) g.workerId
          g'.sequence := by
        rw [hi.uid_eq, currentUid, hi.allocator, hi.epoch, hi.worker]
      -- the second of this call, with which the later calls go on
      have hopen : g.bitsAllocator.allocate (g'.lastSecond - g.epochSeconds) g.workerId 0 = uid₁ ∨
          g'.lastSecond = g.lastSecond := by
        obtain ⟨-, hzero⟩ | ⟨hsame, -⟩ := hi.advance
        · rw [huid₁, hzero]
          exact .inl rfl
        · exact .inr hsame
      intro uid huid
      obtain rfl | huid : uid = uid₁ ∨ uid ∈ uidsOf (g'.nextIds n clock') := List.mem_cons.mp huid
      · refine ⟨g'.lastSecond, g'.sequence, hi.allocator ▸ hg'.sequence, huid₁,
          ⟨millis₁, by simp [hclock], getCurrentSecond_eq hreading⟩, hopen.imp_left fun h => ?_⟩
        rw [h]
        exact List.mem_cons_self
      · obtain ⟨s, q, hq, heq, ⟨millis, hmem, hs⟩, hfirst⟩ := ih hg' uid huid
        rw [hi.allocator, hi.epoch, hi.worker] at heq hfirst
        refine ⟨s, q, hi.allocator ▸ hq, heq, ⟨millis, hi.rest_subset millis hmem, hs⟩, ?_⟩
        obtain hfirst | rfl := hfirst
        · exact .inl (List.mem_cons_of_mem uid₁ hfirst)
        · refine hopen.imp_left fun h => ?_
          rw [h]
          exact List.mem_cons_self

end DefaultUidGenerator

/-! ### In a ring -/

/-- Whatever part of the list has been taken, it opens its seconds. -/
def OpenedThroughout (b : BitsAllocator) (k : JLong) (uids : List JLong) : Prop :=
  ∀ taken, taken <+: uids → Opened b k taken

theorem OpenedThroughout.append {l m : List JLong} (hl : OpenedThroughout b k l)
    (hm : OpenedThroughout b k m) : OpenedThroughout b k (l ++ m) := by
  intro taken htaken
  obtain hshort | ⟨rest, rfl⟩ := List.prefix_or_prefix_of_prefix htaken (List.prefix_append l m)
  · exact hl taken hshort
  · have hrest : rest <+: m := (List.prefix_append_right_inj l).mp htaken
    exact (hl l List.prefix_rfl).append (hm rest hrest)

/-- A second is put into the ring from its first uid on. -/
theorem CachedUidGenerator.filled_opened (g : CachedUidGenerator) (hb : g.bitsAllocator.WellFormed) :
    OpenedThroughout g.bitsAllocator g.workerId (g.filled.map Prod.snd) := by
  intro taken htaken
  have hpos : 0 < 2 ^ g.bitsAllocator.seqWidth := Nat.two_pow_pos _
  obtain ⟨n, rfl⟩ : ∃ n, taken = (blocks (2 ^ g.bitsAllocator.seqWidth) n).map fun p =>
      g.uidAt (secondAfter g.bufferPaddingExecutor.lastSecond p.1) p.2 := by
    refine ⟨min taken.length g.room, ?_⟩
    rw [List.prefix_iff_eq_take.mp htaken, filled, List.map_map, ← List.map_take, blocks, blocks,
      ← List.map_take, List.take_range]
    simp
  intro uid huid
  obtain ⟨⟨j, i⟩, hmem, rfl⟩ := List.mem_map.mp huid
  obtain ⟨hi, hn⟩ := (mem_blocks hpos).mp hmem
  refine ⟨_, BitVec.ofNat 64 i, (toNat_offset hb hi).symm ▸ hi, rfl, List.mem_map.mpr ⟨(j, 0), ?_, rfl⟩⟩
  exact (mem_blocks hpos).mpr ⟨hpos, (Nat.le_add_right (j * _) i).trans_lt hn⟩

namespace Life

variable {p : CachedProperties} {workerId millis : JLong} {l : Life} {calls : List Call}

theorem returned_opened (hl : ValidLayout p.timeBits p.workerBits p.seqBits)
    (hw : 0 ≤ workerId.toInt) (h : live p workerId millis calls = some l) :
    ∃ g, DefaultUidGenerator.afterPropertiesSet p.toUidProperties workerId = .ok g ∧
      Opened g.bitsAllocator workerId l.returned := by
  obtain ⟨g, hg⟩ := create_of_live h
  have hblank : Blank g p workerId millis := blank_of_create hl.fits hw hg
  have hworker := (DefaultUidGenerator.afterPropertiesSet_eq hblank.configured).2.2.1
  refine ⟨g.toDefaultUidGenerator, hblank.configured, ?_⟩
  rw [live_eq_run hblank hg] at h
  have hstep (l : Life) (c : Call) (l' : Life) (hl : l.Consistent)
      (hP : l.generator.toDefaultUidGenerator = g.toDefaultUidGenerator ∧
        OpenedThroughout g.bitsAllocator workerId (l.executor.placed.map Prod.snd))
      (hcall : call (some l) c = some l') :
      l'.generator.toDefaultUidGenerator = g.toDefaultUidGenerator ∧
        OpenedThroughout g.bitsAllocator workerId (l'.executor.placed.map Prod.snd) := by
    obtain ⟨hgen, hplaced⟩ := hP
    obtain ⟨l'', hcall', -, hgen', hdoes⟩ := call_cases hl c
    obtain ⟨k, stock, hworks, -⟩ := hl
    obtain rfl := Option.some.inj (hcall.symm.trans hcall')
    refine ⟨hgen'.trans hgen, ?_⟩
    obtain ⟨-, hex⟩ | ⟨-, -, hex⟩ := hdoes
    · rwa [hex]
    · rw [hex, List.map_append]
      refine hplaced.append ?_
      have hfilled := l.generator.filled_opened hworks.layout
      rwa [hgen, hworker] at hfilled
  have hempty : (begin g).executor.placed.map Prod.snd = [] := by
    change g.bufferPaddingExecutor.placed.map Prod.snd = []
    rw [hblank.executor]
    rfl
  have hnil : OpenedThroughout g.bitsAllocator workerId [] := by
    intro taken htaken
    rw [List.prefix_nil.mp htaken]
    exact fun uid huid => absurd huid List.not_mem_nil
  obtain ⟨l', hrun, ⟨k, stock, -, hplaced⟩, -, hopened⟩ := run_induction hstep
    (consistent_of_blank hblank) ⟨rfl, hempty ▸ hnil⟩ (.paddingBuffer :: calls)
  obtain rfl := Option.some.inj (h.symm.trans hrun)
  exact hopened l.returned ⟨stock, hplaced⟩

end Life

/-! ## Two nodes -/

/-- What all uids of a node have in common. -/
theorem Node.uids_opened {p : CachedProperties} {node : Node}
    (hl : ValidLayout p.timeBits p.workerBits p.seqBits)
    (hb : BitsAllocator.new p.timeBits p.workerBits p.seqBits = .ok b)
    (hw : 0 ≤ node.workerId.toInt) (hdated : node.Dated) :
    Opened b node.workerId (node.uids p) ∧
      (node.uids p ≠ [] → node.workerId.toNat < 2 ^ b.workerWidth) := by
  have hwf : b.WellFormed := BitsAllocator.new_wellFormed hl.fits hb
  have hset {g : DefaultUidGenerator}
      (hg : DefaultUidGenerator.afterPropertiesSet p.toUidProperties node.workerId = .ok g) :
      g.bitsAllocator = b ∧ node.workerId.toNat < 2 ^ b.workerWidth := by
    obtain ⟨hnew, hmax, -⟩ := DefaultUidGenerator.afterPropertiesSet_eq hg
    obtain rfl := Except.ok.inj (hnew.symm.trans hb)
    exact ⟨rfl, BitsAllocator.worker_fits hwf hw hmax⟩
  have hnone : Opened b node.workerId [] := fun uid huid =>
    absurd huid List.not_mem_nil
  obtain ⟨workerId, work⟩ := node
  cases work with
  | plain n clock =>
    rw [Node.uids]
    simp only
    split
    · next g hg =>
      obtain ⟨rfl, hlt⟩ := hset hg
      refine ⟨fun uid huid => ?_, fun _ => hlt⟩
      have hready := DefaultUidGenerator.ready_of_afterPropertiesSet hl hg hw
      obtain ⟨-, -, hworker, -, -, hlast⟩ := DefaultUidGenerator.afterPropertiesSet_eq hg
      obtain ⟨s, q, hq, heq, ⟨millis, hmem, hs⟩, hfirst⟩ :=
        DefaultUidGenerator.nextIds_opens n hready uid huid
      have hsecond : s ≠ g.lastSecond := by
        rw [hs, hlast]
        exact hdated millis hmem
      rw [hworker] at heq hfirst
      exact ⟨s - g.epochSeconds, q, hq, heq, hfirst.resolve_right hsecond⟩
    · exact ⟨hnone, fun h => absurd rfl h⟩
  | cached millis calls =>
    rw [Node.uids]
    simp only
    split
    · next l hlive =>
      obtain ⟨g, hg, hopened⟩ := Life.returned_opened hl hw hlive
      obtain ⟨rfl, hlt⟩ := hset hg
      exact ⟨hopened, fun _ => hlt⟩
    · exact ⟨hnone, fun h => absurd rfl h⟩

theorem deltaSeconds_allocate {g : DefaultUidGenerator} (hb : g.bitsAllocator.WellFormed)
    (hk : k.toNat < 2 ^ g.bitsAllocator.workerWidth) (hq : q.toNat < 2 ^ g.bitsAllocator.seqWidth) :
    (g.parseUID (g.bitsAllocator.allocate d k q)).deltaSeconds.toNat =
      d.toNat % 2 ^ (g.bitsAllocator.timeWidth + 1) := by
  rw [(DefaultUidGenerator.parseUID_fields hb _).2.2, BitsAllocator.toNat_allocate hb d hk hq,
    join_div (join_lt hk hq)]

variable {p : CachedProperties} {reader : DefaultUidGenerator} {workerId : JLong} {a c : Node}

/-- Two nodes return a common uid if and only if they have the same worker id and return a uid of
the same second. -/
theorem disjoint_uids_iff (hl : ValidLayout p.timeBits p.workerBits p.seqBits)
    (hreader : DefaultUidGenerator.afterPropertiesSet p.toUidProperties workerId = .ok reader)
    (ha : 0 ≤ a.workerId.toInt ∧ a.Dated) (hc : 0 ≤ c.workerId.toInt ∧ c.Dated) :
    (a.uids p).Disjoint (c.uids p) ↔ (a.workerId = c.workerId → ∀ u ∈ a.uids p, ∀ v ∈ c.uids p,
      (reader.parseUID u).deltaSeconds ≠ (reader.parseUID v).deltaSeconds) := by
  have hnew := (DefaultUidGenerator.afterPropertiesSet_eq hreader).1
  have hb : reader.bitsAllocator.WellFormed := BitsAllocator.new_wellFormed hl.fits hnew
  obtain ⟨hopena, hlta⟩ := Node.uids_opened hl hnew ha.1 ha.2
  obtain ⟨hopenc, hltc⟩ := Node.uids_opened hl hnew hc.1 hc.2
  constructor
  · intro hdisjoint hsame u hu v hv hdelta
    have hk := hlta (List.ne_nil_of_mem hu)
    obtain ⟨d, q, hq, rfl, hfirst⟩ := hopena u hu
    obtain ⟨d', q', hq', rfl, hfirst'⟩ := hopenc v hv
    rw [← hsame] at hdelta hfirst'
    have hdd := congrArg BitVec.toNat hdelta
    rw [deltaSeconds_allocate hb hk hq, deltaSeconds_allocate hb hk hq'] at hdd
    have heq : reader.bitsAllocator.allocate d a.workerId 0 =
        reader.bitsAllocator.allocate d' a.workerId 0 := by
      refine BitVec.eq_of_toNat_eq ?_
      rw [BitsAllocator.toNat_allocate hb d hk (Nat.two_pow_pos _),
        BitsAllocator.toNat_allocate hb d' hk (Nat.two_pow_pos _), hdd]
    exact hdisjoint hfirst (heq ▸ hfirst')
  · intro h uid hu hv
    have hk := hlta (List.ne_nil_of_mem hu)
    have hk' := hltc (List.ne_nil_of_mem hv)
    obtain ⟨d, q, hq, heq, -⟩ := hopena uid hu
    obtain ⟨d', q', hq', heq', -⟩ := hopenc uid hv
    have hworker : a.workerId = c.workerId := by
      have hword := congrArg BitVec.toNat (heq.symm.trans heq')
      rw [BitsAllocator.toNat_allocate hb d hk hq, BitsAllocator.toNat_allocate hb d' hk' hq',
        join_inj (join_lt hk hq) (join_lt hk' hq'), join_inj hq hq'] at hword
      exact BitVec.eq_of_toNat_eq hword.2.1
    exact h hworker uid hu uid hv rfl

/-- In a cluster no uid is returned twice if and only if no node returns one twice, and two nodes
with the same worker id never return uids of the same second. -/
theorem nodup_uids_iff (hl : ValidLayout p.timeBits p.workerBits p.seqBits)
    (hreader : DefaultUidGenerator.afterPropertiesSet p.toUidProperties workerId = .ok reader)
    (nodes : List Node) (hnodes : ∀ node ∈ nodes, 0 ≤ node.workerId.toInt ∧ node.Dated) :
    (nodes.flatMap (Node.uids p)).Nodup ↔ (∀ node ∈ nodes, (node.uids p).Nodup) ∧
      nodes.Pairwise fun a c => a.workerId = c.workerId → ∀ u ∈ a.uids p, ∀ v ∈ c.uids p,
        (reader.parseUID u).deltaSeconds ≠ (reader.parseUID v).deltaSeconds := by
  rw [List.nodup_flatMap]
  refine and_congr_right fun _ => ?_
  constructor
  · intro h
    exact h.imp_of_mem fun ha hc hac => (disjoint_uids_iff hl hreader (hnodes _ ha) (hnodes _ hc)).mp hac
  · intro h
    exact h.imp_of_mem fun ha hc hac => (disjoint_uids_iff hl hreader (hnodes _ ha) (hnodes _ hc)).mpr hac

/-- Two nodes without a configured worker id. -/
def unconfigured : List Node :=
  [⟨0, .plain 1 [1500000000000]⟩, ⟨0, .plain 2 [1500000000007, 1500000000999]⟩]

theorem nodup_uids_unconfigured :
    ¬ (unconfigured.flatMap (Node.uids Life.twoSecondProperties)).Nodup := by
  intro h
  have hl : ValidLayout Life.twoSecondProperties.timeBits Life.twoSecondProperties.workerBits
      Life.twoSecondProperties.seqBits := twoBitProperties_valid
  have hnodes : ∀ node ∈ unconfigured, 0 ≤ node.workerId.toInt ∧ node.Dated := by
    simp only [unconfigured, List.forall_mem_cons, Node.Dated, List.not_mem_nil, false_implies,
      implies_true, and_true]
    decide
  have hapart := ((nodup_uids_iff hl twoBitSequence_eq unconfigured hnodes).mp h).2
  have hfirst : 304727929651200 ∈ Node.uids Life.twoSecondProperties ⟨0, .plain 1 [1500000000000]⟩ := by
    decide +kernel
  have hsecond : 304727929651200 ∈ Node.uids Life.twoSecondProperties
      ⟨0, .plain 2 [1500000000007, 1500000000999]⟩ := by
    decide +kernel
  exact List.pairwise_pair.mp hapart rfl _ hfirst _ hsecond rfl

end BigPlan.Uid
