import BigPlan.Lib.Java
import BigPlan.Lib.Runs
import Mathlib.Data.Nat.ModEq
import Mathlib.Logic.Function.Basic

/-!
# The round robin

Any number of calls of `select` advance one atomic step at a time. The counter starts again at
zero after the greatest int, and this does not fit the rotation unless the number of instances is
a power of two. The history records the indices in the order of the successful compare-and-sets.
-/
namespace BigPlan.Job.RoundRobinRoute

open Lib.Java Lib.Runs

/-! ## Threads -/

def MAX_VALUE : JInt := 2147483647

/-- `instances.get(index)`, which throws outside of the list. -/
def get {α : Type} (instances : List α) (index : JInt) : Option α :=
  if 0 ≤ index.toInt then instances[index.toNat]? else none

/-- How far a thread has come with its call of `select`. -/
inductive Call (α : Type) where
  | start
  | read (current : JInt)
  | returned (result : Option α)
  | thrown
  deriving DecidableEq, Repr

structure Route (α : Type) where
  atomicInteger : JInt
  calls : ℕ → Call α
  selected : List JInt

variable {α : Type} (instances : List α)

def size : JInt := BitVec.ofNat 32 instances.length

/-- What the counter is set to. -/
def next (current : JInt) : JInt := if current = MAX_VALUE then 0 else current + 1

/-- What `select` returns after its loop. -/
def choose (current : JInt) : Call α :=
  match get instances (current.srem (size instances)) with
  | some a => .returned (some a)
  | none => .thrown

/-- A step of a thread. It calls again after its call has ended. -/
def step (s : Route α) (i : ℕ) : Route α :=
  match s.calls i with
  | .start =>
    if instances = [] then { s with calls := Function.update s.calls i (.returned none) }
    else { s with calls := Function.update s.calls i (.read s.atomicInteger) }
  | .read current =>
    if s.atomicInteger = current then
      { atomicInteger := next current
        calls := Function.update s.calls i (choose instances current)
        selected := s.selected ++ [current.srem (size instances)] }
    else { s with calls := Function.update s.calls i .start }
  | .returned _ | .thrown => { s with calls := Function.update s.calls i .start }

def start (α : Type) (atomicInteger : JInt) : Route α :=
  { atomicInteger, calls := fun _ => .start, selected := [] }

/-! ## Rotation -/

/-- Any as many selections in a row as there are instances are pairwise different, and every
index is in the list. -/
structure Rotates (s : Route α) : Prop where
  distinct : ∀ m j k, m + instances.length ≤ s.selected.length → m ≤ j → j < k →
    k < m + instances.length → s.selected[j]? ≠ s.selected[k]?
  inside : ∀ index ∈ s.selected, 0 ≤ index.toInt ∧ index.toInt < instances.length
  served : ∀ i, s.calls i ≠ .thrown

/-- A thread may set the counter if the reset fits the rotation, if it is far enough behind, or if
there have not been enough selections before it. -/
def Fitting (s : Route α) (i : ℕ) : Prop :=
  s.calls i = .read s.atomicInteger → instances.length ∣ 2 ^ 31 ∨
    instances.length ≤ s.atomicInteger.toNat + 1 ∨ s.selected.length + 1 < instances.length

/-! ## Remainders -/

section Remainders

variable {n x y : ℕ}

theorem mod_ne_of_lt (hlt : x < y) (hnear : y < x + n) : x % n ≠ y % n := by
  intro heq
  obtain ⟨q, hq⟩ := (Nat.modEq_iff_dvd' hlt.le).mp heq
  rcases Nat.eq_zero_or_pos q with rfl | hpos
  · omega
  · have hle := Nat.le_mul_of_pos_right n hpos
    omega

/-- Numbers that are near each other have different remainders across a reset that fits. -/
theorem mod_mod_ne_of_dvd (hdvd : n ∣ 2 ^ 31) (hlt : x < y) (hnear : y < x + n) :
    x % 2 ^ 31 % n ≠ y % 2 ^ 31 % n := by
  rw [Nat.mod_mod_of_dvd _ hdvd, Nat.mod_mod_of_dvd _ hdvd]
  exact mod_ne_of_lt hlt hnear

/-- Numbers are different if there is no reset between them. -/
theorem mod_mod_ne_of_le (hlt : x < y) (hnear : y < x + n) {z : ℕ} (hyz : y ≤ z)
    (hbehind : z < x + n) (hle : n ≤ z % 2 ^ 31 + 1) : x % 2 ^ 31 % n ≠ y % 2 ^ 31 % n := by
  have hx : x % 2 ^ 31 = z % 2 ^ 31 - (z - x) := by omega
  have hy : y % 2 ^ 31 = z % 2 ^ 31 - (z - y) := by omega
  exact mod_ne_of_lt (by omega) (by omega)

/-- Two of the last numbers have the same remainder after a reset that does not fit. -/
theorem exists_mod_eq (hn : n < 2 ^ 31) (hdvd : ¬ n ∣ 2 ^ 31) {z : ℕ}
    (hafter : z % 2 ^ 31 + 1 < n) (hz : n ≤ z + 1) :
    ∃ x y, z < x + n ∧ x < y ∧ y ≤ z ∧ x % 2 ^ 31 % n = y % 2 ^ 31 % n := by
  have hpos : 0 < 2 ^ 31 % n := Nat.pos_of_ne_zero fun hzero => hdvd (Nat.dvd_of_mod_eq_zero hzero)
  have hr : 2 ^ 31 % n < n := Nat.mod_lt _ (by omega)
  have hwhole : 2 ^ 31 - 2 ^ 31 % n = n * (2 ^ 31 / n) := by
    have hdiv := Nat.div_add_mod (2 ^ 31) n
    omega
  rcases Nat.lt_or_ge (n - 1 - z % 2 ^ 31) (2 ^ 31 % n) with hless | hge
  · -- the first one of the window is as far behind the reset as it may be
    refine ⟨z + 1 - n, z - z % 2 ^ 31 + (2 ^ 31 % n - (n - 1 - z % 2 ^ 31)), by omega, by omega,
      by omega, ?_⟩
    have hx : (z + 1 - n) % 2 ^ 31 = 2 ^ 31 - (n - 1 - z % 2 ^ 31) := by omega
    have hy : (z - z % 2 ^ 31 + (2 ^ 31 % n - (n - 1 - z % 2 ^ 31))) % 2 ^ 31 =
        2 ^ 31 % n - (n - 1 - z % 2 ^ 31) := by omega
    rw [hx, hy]
    refine ((Nat.modEq_iff_dvd' (by omega)).mpr ⟨2 ^ 31 / n, ?_⟩).symm
    rw [← hwhole]
    omega
  · -- the reset itself and the number that is as far behind it as the remainder
    refine ⟨z - z % 2 ^ 31 - 2 ^ 31 % n, z - z % 2 ^ 31, by omega, by omega, by omega, ?_⟩
    have hx : (z - z % 2 ^ 31 - 2 ^ 31 % n) % 2 ^ 31 = 2 ^ 31 - 2 ^ 31 % n := by omega
    have hy : (z - z % 2 ^ 31) % 2 ^ 31 = 0 := by omega
    rw [hx, hy, hwhole, Nat.mul_mod_right, Nat.zero_mod]

end Remainders

/-! ## Steps -/

variable {instances} {s : Route α} {i : ℕ} {first : ℕ}

theorem toNat_srem_size {current : JInt} (hcurrent : current.toNat < 2 ^ 31)
    (hlength : instances.length < 2 ^ 31) :
    (current.srem (size instances)).toNat = current.toNat % instances.length := by
  have hsize : (size instances).toNat = instances.length := by
    rw [size, BitVec.toNat_ofNat, Nat.mod_eq_of_lt (by omega)]
  have hmsb : current.msb = false := by
    rw [BitVec.msb_eq_false_iff_two_mul_lt]
    omega
  have hmsb' : (size instances).msb = false := by
    rw [BitVec.msb_eq_false_iff_two_mul_lt, hsize]
    omega
  rw [BitVec.srem_eq, hmsb, hmsb']
  exact BitVec.toNat_umod.trans (by rw [hsize])

theorem toInt_of_toNat_lt {x : JInt} (h : x.toNat < 2 ^ 31) : x.toInt = x.toNat := by
  rw [BitVec.toInt_eq_toNat_cond, if_pos (by omega)]

/-- The index is in the list, so the list has an instance there. -/
theorem choose_returned {current : JInt} (hcurrent : current.toNat < 2 ^ 31)
    (hpos : instances ≠ []) (hlength : instances.length < 2 ^ 31) :
    ∃ a, choose instances current = .returned (some a) := by
  have hindex := toNat_srem_size hcurrent hlength
  have hlt : (current.srem (size instances)).toNat < instances.length := by
    rw [hindex]
    exact Nat.mod_lt _ (List.length_pos_iff.mpr hpos)
  refine ⟨instances[(current.srem (size instances)).toNat], ?_⟩
  rw [choose, get, toInt_of_toNat_lt (by omega), if_pos (Int.natCast_nonneg _),
    List.getElem?_eq_getElem hlt]

/-- The counter and what has been selected, from the first value of the counter on. -/
structure Counted (instances : List α) (first : ℕ) (s : Route α) : Prop where
  counter : s.atomicInteger.toNat = (first + s.selected.length) % 2 ^ 31
  selected : ∀ j < s.selected.length, ∃ index, s.selected[j]? = some index ∧
    index.toNat = (first + j) % 2 ^ 31 % instances.length
  served : ∀ i, s.calls i ≠ .thrown

theorem counted_start {atomicInteger : JInt} (h : 0 ≤ atomicInteger.toInt) :
    Counted instances atomicInteger.toNat (start α atomicInteger) := by
  have hnat := toNat_eq_toInt h
  have hlt := BitVec.toInt_lt (x := atomicInteger)
  refine ⟨?_, fun j hj => absurd hj (Nat.not_lt_zero j), fun i hthrown => nomatch hthrown⟩
  have hsmall : atomicInteger.toNat < 2 ^ 31 := by omega
  exact (Nat.mod_eq_of_lt hsmall).symm

/-- A step that does not set the counter selects nothing. -/
theorem step_of_not_set (instances : List α) (h : s.calls i ≠ .read s.atomicInteger) :
    (step instances s i).atomicInteger = s.atomicInteger ∧
      (step instances s i).selected = s.selected ∧
      ∃ call, (step instances s i).calls = Function.update s.calls i call ∧ call ≠ .thrown := by
  unfold step
  split
  · split
    · exact ⟨rfl, rfl, _, rfl, nofun⟩
    · exact ⟨rfl, rfl, _, rfl, nofun⟩
  · rename_i current hread
    have hne : s.atomicInteger ≠ current := fun heq => h (heq ▸ hread)
    rw [if_neg hne]
    exact ⟨rfl, rfl, _, rfl, nofun⟩
  · exact ⟨rfl, rfl, _, rfl, nofun⟩
  · exact ⟨rfl, rfl, _, rfl, nofun⟩

theorem step_of_set (h : s.calls i = .read s.atomicInteger) :
    step instances s i =
      { atomicInteger := next s.atomicInteger
        calls := Function.update s.calls i (choose instances s.atomicInteger)
        selected := s.selected ++ [s.atomicInteger.srem (size instances)] } := by
  simp only [step, h, if_pos]

theorem toNat_next {current : JInt} (h : current.toNat < 2 ^ 31) :
    (next current).toNat = (current.toNat + 1) % 2 ^ 31 := by
  have hmax : MAX_VALUE.toNat = 2 ^ 31 - 1 := by decide
  unfold next
  split
  · rename_i heq
    rw [heq, hmax]
    rfl
  · rename_i hne
    have hlt : current.toNat ≠ 2 ^ 31 - 1 := fun heq => hne (BitVec.eq_of_toNat_eq (heq.trans hmax.symm))
    have h1 : (1 : JInt).toNat = 1 := by decide
    rw [BitVec.toNat_add, h1, Nat.mod_eq_of_lt (by omega), Nat.mod_eq_of_lt (by omega)]

theorem Counted.counter_lt (h : Counted instances first s) : s.atomicInteger.toNat < 2 ^ 31 := by
  rw [h.counter]
  exact Nat.mod_lt _ (by decide)

theorem Counted.after (h : Counted instances first s) (hpos : instances ≠ [])
    (hlength : instances.length < 2 ^ 31) (i : ℕ) :
    Counted instances first (step instances s i) := by
  by_cases hset : s.calls i = .read s.atomicInteger
  · rw [step_of_set hset]
    refine ⟨?_, ?_, ?_⟩
    · rw [toNat_next h.counter_lt, h.counter, List.length_append, List.length_singleton,
        Nat.mod_add_mod, Nat.add_assoc]
    · intro j hj
      rw [List.length_append, List.length_singleton] at hj
      rcases Nat.lt_or_ge j s.selected.length with hold | hnew
      · obtain ⟨index, hindex, hrem⟩ := h.selected j hold
        exact ⟨index, (List.getElem?_append_left hold).trans hindex, hrem⟩
      · obtain rfl : j = s.selected.length := by omega
        refine ⟨_, List.getElem?_concat_length, ?_⟩
        rw [toNat_srem_size h.counter_lt hlength, h.counter]
    · intro k
      by_cases hk : k = i
      · obtain ⟨a, ha⟩ := choose_returned h.counter_lt hpos hlength
        rw [hk]
        simp only [Function.update_self, ha]
        exact nofun
      · simp only [Function.update_of_ne hk]
        exact h.served k
  · obtain ⟨hcounter, hselected, call, hcalls, hcall⟩ := step_of_not_set instances hset
    refine ⟨?_, ?_, ?_⟩
    · rw [hcounter, hselected]
      exact h.counter
    · rw [hselected]
      exact h.selected
    · intro k
      rw [hcalls]
      by_cases hk : k = i
      · rw [hk, Function.update_self]
        exact hcall
      · rw [Function.update_of_ne hk]
        exact h.served k

/-! ## Selections -/

theorem Counted.selected_eq_iff (h : Counted instances first s) {j k : ℕ}
    (hj : j < s.selected.length) (hk : k < s.selected.length) :
    s.selected[j]? = s.selected[k]? ↔ (first + j) % 2 ^ 31 % instances.length =
      (first + k) % 2 ^ 31 % instances.length := by
  obtain ⟨indexJ, hindexJ, hremJ⟩ := h.selected j hj
  obtain ⟨indexK, hindexK, hremK⟩ := h.selected k hk
  rw [hindexJ, hindexK, ← hremJ, ← hremK, Option.some.injEq, BitVec.toNat_inj]

/-- The part of the rotation that depends on the steps. -/
def Distinct (instances : List α) (s : Route α) : Prop :=
  ∀ m j k, m + instances.length ≤ s.selected.length → m ≤ j → j < k →
    k < m + instances.length → s.selected[j]? ≠ s.selected[k]?

theorem Counted.rotates (h : Counted instances first s) (hdistinct : Distinct instances s)
    (hpos : instances ≠ []) (hlength : instances.length < 2 ^ 31) : Rotates instances s := by
  refine ⟨hdistinct, fun index hindex => ?_, h.served⟩
  obtain ⟨j, hj, rfl⟩ := List.getElem_of_mem hindex
  obtain ⟨index, hindex, hrem⟩ := h.selected j hj
  rw [List.getElem?_eq_getElem hj, Option.some.injEq] at hindex
  have hlt : index.toNat < instances.length := by
    rw [hrem]
    exact Nat.mod_lt _ (List.length_pos_iff.mpr hpos)
  rw [hindex, toInt_of_toNat_lt (by omega)]
  omega

/-- Only the window that ends with the new selection has to be looked at. -/
theorem distinct_step (hdistinct : Distinct instances s) (i : ℕ)
    (hnew : s.calls i = .read s.atomicInteger → ∀ j k,
      s.selected.length + 1 ≤ j + instances.length → j < k → k ≤ s.selected.length →
      instances.length ≤ s.selected.length + 1 →
      (step instances s i).selected[j]? ≠ (step instances s i).selected[k]?) :
    Distinct instances (step instances s i) := by
  intro m j k hm hmj hjk hk
  by_cases hset : s.calls i = .read s.atomicInteger
  · have hselected : (step instances s i).selected =
        s.selected ++ [s.atomicInteger.srem (size instances)] := by rw [step_of_set hset]
    have hgrown : (step instances s i).selected.length = s.selected.length + 1 := by
      rw [hselected, List.length_append, List.length_singleton]
    rcases Nat.lt_or_ge (m + instances.length) (s.selected.length + 1) with hold | hend
    · rw [hselected, List.getElem?_append_left (by omega), List.getElem?_append_left (by omega)]
      exact hdistinct m j k (by omega) hmj hjk hk
    · exact hnew hset j k (by omega) hjk (by omega) (by omega)
  · obtain ⟨-, hselected, -⟩ := step_of_not_set instances hset
    rw [hselected] at hm ⊢
    exact hdistinct m j k hm hmj hjk hk

theorem Counted.distinct_of_fitting (h : Counted instances first s) (hpos : instances ≠ [])
    (hlength : instances.length < 2 ^ 31) (hdistinct : Distinct instances s)
    (hfitting : Fitting instances s i) : Distinct instances (step instances s i) := by
  refine distinct_step hdistinct i fun hset j k hj hjk hk hfull => ?_
  have hgrown : (step instances s i).selected.length = s.selected.length + 1 := by
    rw [step_of_set hset, List.length_append, List.length_singleton]
  have hnext := h.after hpos hlength i
  rw [Ne, hnext.selected_eq_iff (by omega) (by omega)]
  obtain hdvd | hbehind | hfew := hfitting hset
  · exact mod_mod_ne_of_dvd hdvd (by omega) (by omega)
  · rw [h.counter] at hbehind
    exact mod_mod_ne_of_le (z := first + s.selected.length) (by omega) (by omega) (by omega)
      (by omega) hbehind
  · omega

theorem Counted.not_distinct (h : Counted instances first s) (hpos : instances ≠ [])
    (hlength : instances.length < 2 ^ 31) (hfitting : ¬ Fitting instances s i) :
    ¬ Distinct instances (step instances s i) := by
  simp only [Fitting, Classical.not_imp, not_or] at hfitting
  obtain ⟨hset, hdvd, hnear, hmany⟩ := hfitting
  have hgrown : (step instances s i).selected.length = s.selected.length + 1 := by
    rw [step_of_set hset, List.length_append, List.length_singleton]
  have hnext := h.after hpos hlength i
  rw [h.counter] at hnear
  obtain ⟨x, y, hx, hxy, hy, heq⟩ :=
    exists_mod_eq hlength hdvd (z := first + s.selected.length) (by omega) (by omega)
  intro hdistinct
  have hfirst : first ≤ x := by omega
  obtain ⟨j, rfl⟩ := Nat.exists_eq_add_of_le hfirst
  obtain ⟨k, rfl⟩ := Nat.exists_eq_add_of_le (hfirst.trans hxy.le)
  refine hdistinct (s.selected.length + 1 - instances.length) j k (by omega) (by omega) (by omega)
    (by omega) ?_
  rw [hnext.selected_eq_iff (by omega) (by omega)]
  exact heq

/-- The instances rotate throughout a run if and only if every compare-and-set of the run fits. -/
theorem rotation_iff (instances : List α) (atomicInteger : JInt) (threads : List ℕ)
    (hpos : instances ≠ []) (hlength : instances.length < 2 ^ 31)
    (hnonneg : 0 ≤ atomicInteger.toInt) :
    Throughout (step instances) (Rotates instances) (start α atomicInteger) threads ↔
      Along (step instances) (Fitting instances) (start α atomicInteger) threads := by
  refine throughout_iff_along
    (fun _ s => Counted instances atomicInteger.toNat s ∧ Distinct instances s) ?_ ?_ ?_ ?_
  · intro s _ hinv
    exact hinv.1.rotates hinv.2 hpos hlength
  · intro s i _ hinv hfitting
    exact ⟨hinv.1.after hpos hlength i,
      hinv.1.distinct_of_fitting hpos hlength hinv.2 hfitting⟩
  · intro s i _ hinv hfitting hrotates
    exact hinv.1.not_distinct hpos hlength hfitting hrotates.distinct
  · refine ⟨counted_start hnonneg, fun m j k hm _ _ _ => ?_⟩
    have hlen := List.length_pos_iff.mpr hpos
    have hnone : (start α atomicInteger).selected.length = 0 := rfl
    omega

/-- Four instances fit the reset. -/
theorem rotation_iff_four :
    Throughout (step ["a", "b", "c", "d"]) (Rotates ["a", "b", "c", "d"])
      (start String MAX_VALUE) [0, 1, 0, 1, 1] := by
  apply (rotation_iff _ _ _ (by decide) (by decide) (by decide)).mpr
  exact along_of_forall (fun _ _ _ => .inl (by decide)) _ _

/-- One thread gets the first instance of three again after the second one. -/
theorem not_rotation : ¬ ∀ (instances : List String) (atomicInteger : JInt) (threads : List ℕ),
    instances ≠ [] → instances.length < 2 ^ 31 → 0 ≤ atomicInteger.toInt →
      Throughout (step instances) (Rotates instances) (start String atomicInteger) threads := by
  intro h
  have hlast := (h ["a", "b", "c"] 2147483646 [0, 0, 0, 0, 0, 0, 0, 0] (by decide) (by decide)
    (by decide)).last
  refine hlast.distinct 0 0 2 ?_ (by decide) (by decide) (by decide) ?_ <;> decide

end BigPlan.Job.RoundRobinRoute
