import Mathlib
import BigPlan.Lib.Java
import BigPlan.Lib.Runs
import BigPlan.Lib.Text

/-!
# Names of threads

Threads that make new threads share a map from prefixes to counters. A counter that two threads make
for the same prefix at the same time gets into the map once, and both take their numbers from that
one.
-/
namespace BigPlan.Uid.NamingThreadFactory

open Lib Lib.Java Lib.Runs

/-- Where a thread is in `newThread`. A counter is known by its address. -/
inductive Phase where
  | outside
  | get (invoker : String)
  | putIfAbsent (invoker : String) (r : ℕ)
  | incrementAndGet (invoker : String) (r : ℕ)
  deriving DecidableEq, Repr

/-- The factory with its counters, and on record the numbers that were taken, the last one first. -/
structure State (T : Type) where
  name : Option String
  sequences : String → Option ℕ
  counters : ℕ → JLong
  fresh : ℕ
  phase : T → Phase
  taken : List (String × JLong)

inductive Event (T : Type) where
  | setName (name : Option String)
  /-- A thread takes its next step. `invoker` is what `getInvoker()` would return. -/
  | step (thread : T) (invoker : String)

variable {T : Type}

/-- `new NamingThreadFactory(name)`. -/
def start (name : Option String) : State T where
  name := name
  sequences _ := none
  counters _ := 0
  fresh := 0
  phase _ := .outside
  taken := []

variable [DecidableEq T]

namespace State

def goto (s : State T) (t : T) (phase : Phase) : State T :=
  { s with phase := Function.update s.phase t phase }

/-- `new AtomicLong(0)`. -/
def newCounter (s : State T) (t : T) (invoker : String) : State T :=
  { s.goto t (.putIfAbsent invoker s.fresh) with
    counters := Function.update s.counters s.fresh 0
    fresh := s.fresh + 1 }

def putCounter (s : State T) (t : T) (invoker : String) (r : ℕ) : State T :=
  { s.goto t (.incrementAndGet invoker r) with
    sequences := Function.update s.sequences invoker (some r) }

def takeNumber (s : State T) (t : T) (invoker : String) (r : ℕ) : State T :=
  { s.goto t .outside with
    counters := Function.update s.counters r (s.counters r + 1)
    taken := (invoker, s.counters r + 1) :: s.taken }

/-- A step of `newThread` and `getSequence`. -/
def advance (s : State T) (t : T) (invoker : String) : State T :=
  match s.phase t with
  | .outside => s.goto t (.get (if isBlank s.name then invoker else s.name.getD ""))
  | .get invoker =>
    match s.sequences invoker with
    | some r => s.goto t (.incrementAndGet invoker r)
    | none => s.newCounter t invoker
  | .putIfAbsent invoker r =>
    match s.sequences invoker with
    | some previous => s.goto t (.incrementAndGet invoker previous)
    | none => s.putCounter t invoker r
  | .incrementAndGet invoker r => s.takeNumber t invoker r

def handle (s : State T) : Event T → State T
  | .setName name => { s with name := name }
  | .step t invoker => s.advance t invoker

/-- The numbers that were taken for a prefix, in their order. -/
def numbers (s : State T) (p : String) : List JLong :=
  ((s.taken.filter fun a => a.1 = p).map Prod.snd).reverse

/-- `prefix + "-" + getSequence(prefix)` for each number. -/
def names (s : State T) : List String :=
  s.taken.map fun a => a.1 ++ "-" ++ toString a.2.toInt

end State

/-! ## One step -/

/-- The first numbers. -/
def firstNumbers (n : ℕ) : List JLong := (List.range n).map fun i => BitVec.ofNat 64 (i + 1)

variable {s : State T} {t u : T} {p q : String} {r r' : ℕ}

/-- Each counter in the map is that of one prefix, and has been counted up once for each number that
was taken for it. One that is not in the map yet is that of one thread. -/
structure Inv (s : State T) : Prop where
  lt : ∀ p r, s.sequences p = some r → r < s.fresh
  inj : ∀ p q r, s.sequences p = some r → s.sequences q = some r → p = q
  counted : ∀ p r, s.sequences p = some r → s.counters r = BitVec.ofNat 64 (s.numbers p).length
  numbers : ∀ p, s.numbers p = firstNumbers (s.numbers p).length
  absent : ∀ p, s.sequences p = none → s.numbers p = []
  own : ∀ t p r, s.phase t = .putIfAbsent p r →
    r < s.fresh ∧ s.counters r = 0 ∧ ∀ q, s.sequences q ≠ some r
  alone : ∀ t u p q r, s.phase t = .putIfAbsent p r → s.phase u = .putIfAbsent q r → t = u
  known : ∀ t p r, s.phase t = .incrementAndGet p r → s.sequences p = some r

omit [DecidableEq T] in
theorem inv_start (name : Option String) : Inv (start name : State T) where
  lt _ _ h := nomatch h
  inj _ _ _ h := nomatch h
  counted _ _ h := nomatch h
  numbers _ := rfl
  absent _ _ := rfl
  own _ _ _ h := nomatch h
  alone _ _ _ _ _ h := nomatch h
  known _ _ _ h := nomatch h

omit [DecidableEq T] in
theorem Inv.setName (h : Inv s) (name : Option String) : Inv { s with name := name } :=
  ⟨h.lt, h.inj, h.counted, h.numbers, h.absent, h.own, h.alone, h.known⟩

theorem phase_goto (s : State T) (t : T) (phase : Phase) (u : T) :
    (s.goto t phase).phase u = if u = t then phase else s.phase u := Function.update_apply ..

/-- A thread goes on without a counter of its own. -/
theorem Inv.goto (h : Inv s) {phase : Phase} (hput : ∀ p r, phase ≠ .putIfAbsent p r)
    (hknown : ∀ p r, phase = .incrementAndGet p r → s.sequences p = some r) :
    Inv (s.goto t phase) where
  lt := h.lt
  inj := h.inj
  counted := h.counted
  numbers := h.numbers
  absent := h.absent
  own u p r hu := by
    rw [phase_goto] at hu
    split at hu
    · exact absurd hu (hput p r)
    · exact h.own u p r hu
  alone u v p q r hu hv := by
    rw [phase_goto] at hu hv
    split at hu
    · exact absurd hu (hput p r)
    · split at hv
      · exact absurd hv (hput q r)
      · exact h.alone u v p q r hu hv
  known u p r hu := by
    rw [phase_goto] at hu
    split at hu
    · exact hknown p r hu
    · exact h.known u p r hu

theorem sequences_putCounter (s : State T) (t : T) (p : String) (r : ℕ) (q : String) :
    (s.putCounter t p r).sequences q = if q = p then some r else s.sequences q :=
  Function.update_apply ..

theorem counters_newCounter (s : State T) (t : T) (p : String) (r : ℕ) :
    (s.newCounter t p).counters r = if r = s.fresh then 0 else s.counters r :=
  Function.update_apply ..

theorem counters_takeNumber (s : State T) (t : T) (p : String) (r r' : ℕ) :
    (s.takeNumber t p r).counters r' = if r' = r then s.counters r + 1 else s.counters r' :=
  Function.update_apply ..

theorem numbers_takeNumber (s : State T) (t : T) (p : String) (r : ℕ) (q : String) :
    (s.takeNumber t p r).numbers q =
      if p = q then s.numbers q ++ [s.counters r + 1] else s.numbers q := by
  by_cases hpq : p = q <;> simp [State.numbers, State.takeNumber, hpq]

/-- A thread makes a counter that no other thread knows. -/
theorem Inv.newCounter (h : Inv s) (t : T) (p : String) : Inv (s.newCounter t p) where
  lt q r hr := Nat.lt_succ_of_lt (h.lt q r hr)
  inj := h.inj
  counted q r hr := by
    rw [counters_newCounter, if_neg (h.lt q r hr).ne]
    exact h.counted q r hr
  numbers := h.numbers
  absent := h.absent
  own u q r hu := by
    rw [counters_newCounter]
    change (s.goto t _).phase u = _ at hu
    rw [phase_goto] at hu
    split at hu
    · cases hu
      exact ⟨s.fresh.lt_succ_self, if_pos rfl, fun q hq => (h.lt q _ hq).ne rfl⟩
    · obtain ⟨hlt, hzero, hnone⟩ := h.own u q r hu
      exact ⟨Nat.lt_succ_of_lt hlt, (if_neg hlt.ne).trans hzero, hnone⟩
  alone u v q q' r hu hv := by
    change (s.goto t _).phase u = _ at hu
    change (s.goto t _).phase v = _ at hv
    rw [phase_goto] at hu hv
    split at hu <;> split at hv
    · next hut hvt => exact hut.trans hvt.symm
    · cases hu
      exact absurd (h.own v q' _ hv).1 (lt_irrefl _)
    · cases hv
      exact absurd (h.own u q _ hu).1 (lt_irrefl _)
    · exact h.alone u v q q' r hu hv
  known u q r hu := by
    change (s.goto t _).phase u = _ at hu
    rw [phase_goto] at hu
    split at hu
    · cases hu
    · exact h.known u q r hu

/-- The counter of a thread gets into the map. -/
theorem Inv.putCounter (h : Inv s) (ht : s.phase t = .putIfAbsent p r)
    (hnone : s.sequences p = none) : Inv (s.putCounter t p r) := by
  obtain ⟨hlt, hzero, hnowhere⟩ := h.own t p r ht
  have hput (u : T) (q : String) (r' : ℕ)
      (hu : (s.putCounter t p r).phase u = .putIfAbsent q r') :
      u ≠ t ∧ s.phase u = .putIfAbsent q r' := by
    change (s.goto t _).phase u = _ at hu
    rw [phase_goto] at hu
    split at hu
    · cases hu
    · next hut => exact ⟨hut, hu⟩
  refine ⟨fun q r' hq => ?_, fun q q' r' hq hq' => ?_, fun q r' hq => ?_, h.numbers, fun q hq => ?_,
    fun u q r' hu => ?_,
    fun u v q q' r' hu hv => h.alone u v q q' r' (hput u q r' hu).2 (hput v q' r' hv).2,
    fun u q r' hu => ?_⟩
  · rw [sequences_putCounter] at hq
    split at hq
    · cases hq
      exact hlt
    · exact h.lt q r' hq
  · rw [sequences_putCounter] at hq hq'
    split at hq <;> split at hq'
    · next hqp hqp' => exact hqp.trans hqp'.symm
    · cases hq
      exact absurd hq' (hnowhere q')
    · cases hq'
      exact absurd hq (hnowhere q)
    · exact h.inj q q' r' hq hq'
  · rw [sequences_putCounter] at hq
    split at hq
    · next hqp =>
      cases hq
      have hempty : s.numbers q = [] := h.absent q (hqp ▸ hnone)
      exact hzero.trans (congrArg (BitVec.ofNat 64) (congrArg List.length hempty)).symm
    · exact h.counted q r' hq
  · rw [sequences_putCounter] at hq
    split at hq
    · cases hq
    · exact h.absent q hq
  · obtain ⟨hut, hu⟩ := hput u q r' hu
    obtain ⟨hlt', hzero', hnowhere'⟩ := h.own u q r' hu
    refine ⟨hlt', hzero', fun q' hq' => ?_⟩
    rw [sequences_putCounter] at hq'
    split at hq'
    · cases hq'
      exact hut (h.alone u t q p r hu ht)
    · exact hnowhere' q' hq'
  · rw [sequences_putCounter]
    change (s.goto t _).phase u = _ at hu
    rw [phase_goto] at hu
    split at hu
    · cases hu
      exact if_pos rfl
    · have hq : s.sequences q = some r' := h.known u q r' hu
      have hne : q ≠ p := by
        rintro rfl
        exact nomatch hq.symm.trans hnone
      exact (if_neg hne).trans hq

theorem firstNumbers_succ (n : ℕ) :
    firstNumbers (n + 1) = firstNumbers n ++ [BitVec.ofNat 64 (n + 1)] := by
  simp [firstNumbers, List.range_succ]

/-- A thread takes the next number of a counter in the map. -/
theorem Inv.takeNumber (h : Inv s) (hp : s.sequences p = some r) (t : T) :
    Inv (s.takeNumber t p r) := by
  have hnext : s.counters r + 1 = BitVec.ofNat 64 ((s.numbers p).length + 1) := by
    rw [h.counted p r hp, BitVec.ofNat_add]
    rfl
  have hbefore (u : T) {phase : Phase} (hphase : phase ≠ .outside)
      (hu : (s.takeNumber t p r).phase u = phase) : s.phase u = phase := by
    change (s.goto t _).phase u = _ at hu
    rw [phase_goto] at hu
    split at hu
    · exact absurd hu.symm hphase
    · exact hu
  refine ⟨h.lt, h.inj, fun q r' hr => ?_, fun q => ?_, fun q hq => ?_, fun u q r' hu => ?_,
    fun u v q q' r' hu hv => ?_, fun u q r' hu => h.known u q r' (hbefore u nofun hu)⟩
  · rw [counters_takeNumber, numbers_takeNumber]
    by_cases hpq : p = q
    · subst hpq
      obtain rfl : r = r' := Option.some.inj (hp.symm.trans hr)
      rw [if_pos rfl, if_pos rfl, hnext, List.length_append]
      rfl
    · have hne : r' ≠ r := fun hrr => hpq (h.inj p q r hp (hrr ▸ hr))
      rw [if_neg hpq, if_neg hne]
      exact h.counted q r' hr
  · rw [numbers_takeNumber]
    split
    · next hpq =>
      subst hpq
      rw [List.length_append, List.length_singleton, firstNumbers_succ, ← h.numbers, hnext]
    · exact h.numbers q
  · have hpq : p ≠ q := by
      rintro rfl
      exact nomatch hp.symm.trans hq
    rw [numbers_takeNumber, if_neg hpq]
    exact h.absent q hq
  · obtain ⟨hlt, hzero, hnone⟩ := h.own u q r' (hbefore u nofun hu)
    have hne : r' ≠ r := fun hrr => hnone p (hrr ▸ hp)
    rw [counters_takeNumber, if_neg hne]
    exact ⟨hlt, hzero, hnone⟩
  · exact h.alone u v q q' r' (hbefore u nofun hu) (hbefore v nofun hv)

theorem Inv.advance (h : Inv s) (t : T) (invoker : String) : Inv (s.advance t invoker) := by
  unfold State.advance
  split
  · exact h.goto nofun nofun
  · split
    · next r hr => exact h.goto nofun (by rintro _ _ ⟨⟩; exact hr)
    · exact h.newCounter t _
  · next p r ht =>
    split
    · next previous hr => exact h.goto nofun (by rintro _ _ ⟨⟩; exact hr)
    · next hnone => exact h.putCounter ht hnone
  · next p r ht => exact h.takeNumber (h.known t p r ht) t

theorem Inv.handle (h : Inv s) : ∀ e : Event T, Inv (s.handle e)
  | .setName name => h.setName name
  | .step t invoker => h.advance t invoker

theorem length_taken_handle (s : State T) (e : Event T) :
    (s.handle e).taken.length ≤ s.taken.length + 1 := by
  cases e with
  | setName name => exact Nat.le_succ _
  | step t invoker =>
    change (s.advance t invoker).taken.length ≤ _
    unfold State.advance
    split
    · exact Nat.le_succ _
    · split <;> exact Nat.le_succ _
    · split <;> exact Nat.le_succ _
    · exact le_rfl

/-! ## Every run -/

theorem inv_run (name : Option String) (es : List (Event T)) :
    Inv (run State.handle (start name) es) :=
  invariant_run (fun _ e h => h.handle e) (inv_start name) es

theorem length_taken_run (s : State T) (es : List (Event T)) :
    (run State.handle s es).taken.length ≤ s.taken.length + es.length := by
  induction es generalizing s with
  | nil => exact le_rfl
  | cons e es ih =>
    have hstep := length_taken_handle s e
    have hrest := ih (s.handle e)
    rw [run_cons, List.length_cons]
    omega

theorem toInt_of_mem_firstNumbers {k : ℕ} (hk : k < 2 ^ 63) {n : JLong} (hn : n ∈ firstNumbers k) :
    n.toInt = n.toNat := by
  obtain ⟨i, hi, rfl⟩ := List.mem_map.mp hn
  have hik : i < k := List.mem_range.mp hi
  refine toInt_of_lt ?_
  rw [BitVec.toNat_ofNat]
  omega

theorem nodup_firstNumbers {k : ℕ} (hk : k < 2 ^ 63) : (firstNumbers k).Nodup := by
  refine List.Nodup.map_on (fun i hi j hj h => ?_) List.nodup_range
  have hik : i < k := List.mem_range.mp hi
  have hjk : j < k := List.mem_range.mp hj
  have hsame : (i + 1) % 2 ^ 64 = (j + 1) % 2 ^ 64 := by
    simpa only [BitVec.toNat_ofNat] using congrArg BitVec.toNat h
  omega

/-- The last hyphen of a name is the one before its number. -/
theorem name_inj {n m : ℕ}
    (h : p ++ "-" ++ toString (n : ℤ) = q ++ "-" ++ toString (m : ℤ)) : p = q ∧ n = m := by
  have hdigits (k : ℕ) : '-' ∉ (Nat.repr k).toList := fun hmem =>
    absurd (Text.digit_of_mem_natRepr hmem) (by decide)
  rw [← String.toList_inj, String.toList_append, String.toList_append, String.toList_append,
    String.toList_append, List.append_assoc, List.append_assoc] at h
  obtain ⟨hpq, hnm⟩ := Text.append_cons_inj (hdigits n) (hdigits m) h
  exact ⟨String.toList_inj.mp hpq, Nat.repr_injective (String.toList_inj.mp hnm)⟩

theorem nodup_of_filter {α β : Type} [DecidableEq α] [DecidableEq β] {l : List (α × β)}
    (h : ∀ a, ((l.filter fun x => x.1 = a).map Prod.snd).Nodup) : l.Nodup := by
  rw [List.nodup_iff_count_le_one]
  rintro ⟨a, b⟩
  calc l.count (a, b)
      = (l.filter fun x => x.1 = a).count (a, b) := (List.count_filter (by simp)).symm
    _ ≤ ((l.filter fun x => x.1 = a).map Prod.snd).count b :=
        List.count_le_count_map (f := Prod.snd) ..
    _ ≤ 1 := List.nodup_iff_count_le_one.mp (h a) b

/-- However the threads take turns, and whatever names the factory is given in between, the numbers
taken for a prefix are 1, 2, 3 and so on, and no two threads get the same name, as long as no number
overflows. -/
theorem nodup_names (name : Option String) (es : List (Event T)) (hes : es.length < 2 ^ 63) :
    (run State.handle (start name) es).names.Nodup ∧
      ∀ p, (run State.handle (start name) es).numbers p =
        firstNumbers ((run State.handle (start name) es).numbers p).length := by
  have hInv : Inv (run State.handle (start name) es) := inv_run name es
  have hlength : (run State.handle (start name) es).taken.length ≤ es.length := by
    simpa only [start, List.length_nil, Nat.zero_add] using length_taken_run (start name) es
  generalize run State.handle (start name) es = s at hInv hlength
  have hcount (p : String) : (s.numbers p).length < 2 ^ 63 := by
    have hfilter := List.length_filter_le (fun a => decide (a.1 = p)) s.taken
    simp only [State.numbers, List.length_reverse, List.length_map]
    omega
  have hnat (a : String × JLong) (ha : a ∈ s.taken) : a.2.toInt = a.2.toNat := by
    have hmem : a.2 ∈ s.numbers a.1 :=
      List.mem_reverse.mpr (List.mem_map_of_mem (List.mem_filter.mpr ⟨ha, by simp⟩))
    rw [hInv.numbers] at hmem
    exact toInt_of_mem_firstNumbers (hcount a.1) hmem
  have htaken : s.taken.Nodup := by
    refine nodup_of_filter fun p => List.nodup_reverse.mp ?_
    change (s.numbers p).Nodup
    rw [hInv.numbers]
    exact nodup_firstNumbers (hcount p)
  refine ⟨List.Nodup.map_on (fun a ha b hb h => ?_) htaken, hInv.numbers⟩
  rw [hnat a ha, hnat b hb] at h
  obtain ⟨hpq, hnumber⟩ := name_inj h
  exact Prod.ext hpq (BitVec.eq_of_toNat_eq hnumber)

/-- Both threads find no counter. -/
theorem nodup_names_both :
    (run State.handle (start (some "w") : State Bool)
        ([true, false, true, false, true, false, true, false].map fun t => .step t "")).names =
      ["w-2", "w-1"] ∧ ["w-2", "w-1"].Nodup :=
  have hnames : (run State.handle (start (some "w") : State Bool)
      ([true, false, true, false, true, false, true, false].map fun t => .step t "")).names =
      ["w-2", "w-1"] := by decide
  ⟨hnames, hnames ▸ (nodup_names (some "w") _ (by decide)).1⟩

end BigPlan.Uid.NamingThreadFactory
