import BigPlan.Algorithm.LinkedList
import BigPlan.Lib.Fallible
import BigPlan.Lib.Java
import Mathlib.Data.List.Rotate

/-!
# The Josephus question

The people stand in a ring that is linked in both directions, and each of them who is counted `m`
is linked out. Whoever is left stands where the recurrence says.
-/
namespace BigPlan.Algorithm

open Lib Lib.Chain Lib.Fallible Lib.Java Lib.Recursion

structure People where
  no : ℤ
  next : Option ℕ := none
  pre : Option ℕ := none
  deriving DecidableEq, Repr

/-- The people that were made up to the next address, and the fields. -/
structure JosephQuestion where
  heap : ℕ → People
  fresh : ℕ
  first : Option ℕ
  last : Option ℕ

namespace JosephQuestion

def start : JosephQuestion := ⟨fun _ => ⟨0, none, none⟩, 0, none, none⟩

def setNext (heap : ℕ → People) (a : ℕ) (next : Option ℕ) : ℕ → People :=
  Function.update heap a { heap a with next := next }

def setPre (heap : ℕ → People) (a : ℕ) (pre : Option ℕ) : ℕ → People :=
  Function.update heap a { heap a with pre := pre }

/-- The target of a call. -/
def deref : Option ℕ → Except String ℕ
  | some a => .ok a
  | none => .error "NullPointer"

/-! ## `init` -/

/-- One turn of the loop. -/
def addPeople (q : JosephQuestion) (i : ℤ) : Except String JosephQuestion :=
  let newPeople := q.fresh
  let heap := Function.update q.heap newPeople ⟨i, none, none⟩
  match q.first with
  | none => .ok ⟨heap, q.fresh + 1, some newPeople, some newPeople⟩
  | some first => do
    let last ← deref q.last
    let heap := setNext heap last (some newPeople)
    let heap := setPre heap newPeople (some last)
    let heap := setNext heap newPeople (some first)
    let heap := setPre heap first (some newPeople)
    return ⟨heap, q.fresh + 1, some first, some newPeople⟩

def init (q : JosephQuestion) (n : ℤ) : Except String JosephQuestion :=
  if n < 1 then .error "人数不能小于1!"
  else if n = 1 then .ok q
  else (List.range n.toNat).foldlM (fun q (i : ℕ) => q.addPeople i) q

/-! ## `run` -/

def unlink (heap : ℕ → People) (current : ℕ) : Except String (ℕ → People) := do
  let pre ← deref (heap current).pre
  let heap := setNext heap pre (heap current).next
  let next ← deref (heap current).next
  return setPre heap next (heap current).pre

/-- What is counted at the current one: the heap and the counter before the step. -/
def count (m : ℤ) (heap : ℕ → People) (i : ℤ) (current : ℕ) : Except String ((ℕ → People) × ℤ) :=
  if m = 0 then .error "/ by zero"
  else if i.tmod m = 0 then do
    let heap ← unlink heap current
    return (heap, 0)
  else .ok (heap, i)

/-- The loop. -/
def runFrom (m : ℤ) : ℕ → (ℕ → People) → ℤ → ℕ → Except String ℤ
  | 0, _, _, _ => .error outOfTurns
  | turns + 1, heap, i, current =>
    if (heap current).next = some current then .ok (wrap ((heap current).no + 1))
    else do
      let (heap, i) ← count m heap i current
      let current ← deref (heap current).next
      runFrom m turns heap (wrap (i + 1)) current

def run (turns : ℕ) (q : JosephQuestion) (n m : ℤ) : Except String ℤ :=
  if n = 1 then .ok n
  else do
    let q ← q.init n
    let current ← deref q.first
    runFrom m turns q.heap 1 current

/-! ## The ring -/

/-- Where the last of `k` people stands if each `m`th is taken away. -/
def J (m : ℕ) : ℕ → ℕ
  | 0 => 0
  | 1 => 0
  | k + 2 => (J m (k + 1) + m) % (k + 2)

theorem J_lt (m k : ℕ) : J m (k + 1) < k + 1 := by
  cases k with
  | zero => exact Nat.zero_lt_one
  | succ k => exact Nat.mod_lt _ (Nat.succ_pos _)

def next (heap : ℕ → People) (a : ℕ) : Option ℕ := (heap a).next

def pre (heap : ℕ → People) (a : ℕ) : Option ℕ := (heap a).pre

section Fields

variable (heap : ℕ → People) (a x : ℕ) (v : Option ℕ)

@[simp] theorem next_setNext : next (setNext heap a v) = Function.update (next heap) a v :=
  Function.comp_update People.next heap a _

@[simp] theorem next_setPre : next (setPre heap a v) = next heap :=
  (Function.comp_update People.next heap a _).trans (Function.update_eq_self a (next heap))

@[simp] theorem pre_setPre : pre (setPre heap a v) = Function.update (pre heap) a v :=
  Function.comp_update People.pre heap a _

@[simp] theorem pre_setNext : pre (setNext heap a v) = pre heap :=
  (Function.comp_update People.pre heap a _).trans (Function.update_eq_self a (pre heap))

@[simp] theorem no_setNext : (setNext heap a v x).no = (heap x).no :=
  congrFun ((Function.comp_update People.no heap a { heap a with next := v }).trans
    (Function.update_eq_self a (People.no ∘ heap))) x

@[simp] theorem no_setPre : (setPre heap a v x).no = (heap x).no :=
  congrFun ((Function.comp_update People.no heap a { heap a with pre := v }).trans
    (Function.update_eq_self a (People.no ∘ heap))) x

end Fields

/-- The people stand in a ring behind the current one. -/
structure Circle (heap : ℕ → People) (current : ℕ) (others : List ℕ) : Prop where
  forward : Ring (next heap) (current :: others)
  backward : Ring (pre heap) (current :: others.reverse)

variable {heap : ℕ → People} {a b : ℕ} {l : List ℕ}

theorem Circle.next_eq (h : Circle heap a (b :: l)) : next heap a = some b := h.forward.next_eq

theorem Circle.rotate (h : Circle heap a (b :: l)) : Circle heap b (l ++ [a]) := by
  have hback := h.backward
  rw [List.reverse_cons, ← List.cons_append] at hback
  refine ⟨h.forward.rotate, ?_⟩
  rw [List.reverse_append, List.reverse_singleton, List.singleton_append]
  exact hback.rotate_back

/-- The current one is linked out, and still refers to the next one. -/
theorem Circle.unlink (h : Circle heap a (b :: l)) :
    ∃ heap', unlink heap a = .ok heap' ∧ next heap' a = some b ∧ Circle heap' b l ∧
      ∀ x, (heap' x).no = (heap x).no := by
  obtain ⟨l', c, hlast⟩ := (List.eq_nil_or_concat' (b :: l)).resolve_left (List.cons_ne_nil b l)
  have hnext : (heap a).next = some b := h.next_eq
  have hpre : (heap a).pre = some c := by
    have hback := h.backward.next_eq
    rw [hlast, List.reverse_append, List.reverse_singleton] at hback
    exact hback
  have hac : a ≠ c := by
    intro hac
    refine (List.nodup_cons.mp h.forward.nodup).1 ?_
    rw [hlast, hac]
    exact List.mem_append_right l' List.mem_cons_self
  have hstill : next (setNext heap c (some b)) a = some b := by
    rw [next_setNext, Function.update_of_ne hac]
    exact hnext
  have hpre' : pre (setNext heap c (some b)) a = some c := by
    rw [pre_setNext]
    exact hpre
  refine ⟨setPre (setNext heap c (some b)) b (some c), ?_, ?_, ⟨?_, ?_⟩, fun x => ?_⟩
  · change (deref (heap a).pre >>= fun pre => _) = _
    rw [hpre]
    change (deref (next (setNext heap c (heap a).next) a) >>= fun next => _) = _
    rw [hnext, hstill]
    change Except.ok (setPre _ b (pre (setNext heap c (some b)) a)) = _
    rw [hpre']
  · rw [next_setPre]
    exact hstill
  · have hforward := h.forward
    rw [hlast] at hforward ⊢
    rw [next_setPre, next_setNext, ← hnext]
    exact hforward.erase
  · have hback := h.backward
    rw [List.reverse_cons] at hback
    rw [pre_setPre, pre_setNext, ← hpre]
    exact hback.erase.rotate_back
  · rw [no_setPre, no_setNext]

/-! ## The last one -/

/-- Where the last one stands in the ring if the current one is counted `i`. -/
def position (m k i : ℕ) : ℕ := (J m (k - 1) + 1 + (m - i)) % k

theorem position_succ {m k i : ℕ} (hi : i < m) :
    (position m k (i + 1) + 1) % k = position m k i := by
  have hsub : m - i = m - (i + 1) + 1 := by omega
  rw [position, position, Nat.mod_add_mod, hsub, Nat.add_assoc _ _ 1]

theorem position_self (m k : ℕ) : position m (k + 2) m = J m (k + 1) + 1 := by
  have hlt := J_lt m k
  rw [position, Nat.sub_self, Nat.add_zero]
  exact Nat.mod_eq_of_lt (Nat.succ_lt_succ hlt)

theorem position_one {m : ℕ} (hm : 1 ≤ m) (k : ℕ) : position m (k + 1) 1 = J m (k + 1) := by
  have hsum : J m k + 1 + (m - 1) = J m k + m := by omega
  rw [position, Nat.add_sub_cancel, hsum]
  cases k with
  | zero => exact Nat.mod_one _
  | succ k => rfl

theorem runFrom_last (h : Circle heap a []) (m : ℤ) (turns : ℕ) (i : ℤ) :
    runFrom m (turns + 1) heap i a = .ok (wrap ((heap a).no + 1)) := if_pos h.forward.next_eq

theorem runFrom_succ (h : Circle heap a (b :: l)) (m : ℤ) (turns : ℕ) (i : ℤ) :
    runFrom m (turns + 1) heap i a = (do
      let (heap, i) ← count m heap i a
      let current ← deref (heap a).next
      runFrom m turns heap (wrap (i + 1)) current) := by
  have hne : (heap a).next ≠ some a := by
    intro hself
    have hba : b = a := Option.some.inj (h.next_eq.symm.trans hself)
    exact (List.nodup_cons.mp h.forward.nodup).1 (hba ▸ List.mem_cons_self)
  exact if_neg hne

/-- The one that is counted less than `m` stays in the ring. -/
theorem runFrom_rotates {m i : ℕ} (hm : m < 2 ^ 31) (hi : 1 ≤ i) (him : i < m)
    (h : Circle heap a (b :: l)) (turns : ℕ) :
    runFrom m (turns + 1) heap i a = runFrom m turns heap ((i + 1 : ℕ) : ℤ) b := by
  have hzero : (m : ℤ) ≠ 0 := by omega
  have hmod : (i : ℤ).tmod m ≠ 0 := by
    rw [Int.tmod_eq_of_lt (by omega) (by omega)]
    omega
  have hnext : (heap a).next = some b := h.next_eq
  have hwrap : wrap ((i : ℤ) + 1) = ((i + 1 : ℕ) : ℤ) := by
    rw [wrap_of_int (by omega) (by omega)]
    rfl
  rw [runFrom_succ h, count, if_neg hzero, if_neg hmod]
  change (deref (heap a).next >>= fun current => runFrom m turns heap (wrap (i + 1)) current) = _
  rw [hnext, hwrap]
  rfl

/-- The one that is counted `m` is linked out. -/
theorem runFrom_unlinks {m : ℕ} (hm : 1 ≤ m) (h : Circle heap a (b :: l)) :
    ∃ heap', (∀ turns, runFrom m (turns + 1) heap m a = runFrom m turns heap' 1 b) ∧
      Circle heap' b l ∧ ∀ x, (heap' x).no = (heap x).no := by
  obtain ⟨heap', hunlink, hnext, hcircle, hno⟩ := h.unlink
  have hzero : (m : ℤ) ≠ 0 := by omega
  refine ⟨heap', fun turns => ?_, hcircle, hno⟩
  rw [runFrom_succ h, count, if_neg hzero, if_pos Int.tmod_self, hunlink]
  change (deref (next heap' a) >>= fun current => runFrom m turns heap' (wrap (0 + 1)) current) = _
  rw [hnext]
  rfl

/-- The loop ends with the one at the position. -/
theorem runFrom_returns {m : ℕ} (hm1 : 1 ≤ m) (hm : m < 2 ^ 31) {i : ℕ} (hi : 1 ≤ i) (him : i ≤ m)
    (h : Circle heap a l) {s : ℕ} (hs : (a :: l)[position m (l.length + 1) i]? = some s) :
    Returns (fun turns => runFrom m turns heap i a) (wrap ((heap s).no + 1)) := by
  -- on the length of the ring, and for each length on how much is left to count
  induction hk : l.length generalizing heap a l i with
  | zero =>
    obtain rfl := List.length_eq_zero_iff.mp hk
    rw [position, List.length_nil, Nat.mod_one] at hs
    cases hs
    refine returns_succ.mp ?_
    simp only [runFrom_last h]
    exact returns_pure _
  | succ k ihk =>
    induction hd : m - i generalizing a l i with
    | zero =>
      obtain rfl : i = m := by omega
      obtain ⟨b, l, rfl⟩ := List.exists_cons_of_length_eq_add_one hk
      obtain ⟨heap', hrun, hcircle, hno⟩ := runFrom_unlinks hi h
      have hk' : l.length = k := Nat.succ.inj hk
      rw [hk, position_self, List.getElem?_cons_succ] at hs
      have hs' : (b :: l)[position i (l.length + 1) 1]? = some s := by
        rw [hk', position_one hm1]
        exact hs
      refine returns_succ.mp ?_
      simp only [hrun, ← hno s]
      exact ihk (le_refl 1) hm1 hcircle hs' hk'
    | succ d ihd =>
      obtain ⟨b, l, rfl⟩ := List.exists_cons_of_length_eq_add_one hk
      have hlt : i < m := by omega
      have hlength : (l ++ [a]).length = k + 1 := by
        rw [List.length_append, ← hk]
        rfl
      have hs' : (b :: (l ++ [a]))[position m ((l ++ [a]).length + 1) (i + 1)]? = some s := by
        have hrotate : b :: (l ++ [a]) = (a :: b :: l).rotate 1 := rfl
        have hbound : position m (k + 1 + 1) (i + 1) < (a :: b :: l).length := by
          rw [List.length_cons, hk]
          exact Nat.mod_lt _ (Nat.succ_pos _)
        rw [hlength, hrotate, List.getElem?_rotate hbound, List.length_cons, hk,
          position_succ hlt, ← hk]
        exact hs
      have hrest := ihd (Nat.le_add_left 1 i) hlt h.rotate hs' hlength (by omega)
      refine returns_succ.mp ?_
      simp only [runFrom_rotates hm hi hlt h]
      exact hrest

/-! ## The people of `init` -/

/-- The people with the numbers up to `k` were added. -/
structure Seated (q : JosephQuestion) (k : ℕ) : Prop where
  fresh : q.fresh = k + 1
  first : q.first = some 0
  last : q.last = some k
  no : ∀ x ≤ k, (q.heap x).no = x
  forward : ∃ r, Leads (next q.heap) (some 0) (List.range (k + 1)) r
  backward : ∃ r, Leads (pre q.heap) (some k) (List.range (k + 1)).reverse r

theorem seated_zero : ∃ q, start.addPeople 0 = .ok q ∧ Seated q 0 := by
  refine ⟨_, rfl, rfl, rfl, rfl, fun x hx => ?_, ⟨none, rfl, rfl⟩, ⟨none, rfl, rfl⟩⟩
  obtain rfl := Nat.le_zero.mp hx
  rfl

/-- One more is added behind the last one, and the ring is closed. -/
theorem Seated.add {q : JosephQuestion} {k : ℕ} (h : Seated q k) :
    ∃ q', q.addPeople (k + 1 : ℕ) = .ok q' ∧ Seated q' (k + 1) ∧
      Circle q'.heap 0 (List.range' 1 (k + 1)) := by
  let heap := Function.update q.heap (k + 1) ⟨(k + 1 : ℕ), none, none⟩
  let heap' := setPre (setNext (setPre (setNext heap k (some (k + 1))) (k + 1) (some k)) (k + 1)
    (some 0)) 0 (some (k + 1))
  have hnext : next heap' =
      Function.update (Function.update (next heap) k (some (k + 1))) (k + 1) (some 0) := by
    simp only [heap', next_setPre, next_setNext]
  have hpre : pre heap' =
      Function.update (Function.update (pre heap) (k + 1) (some k)) 0 (some (k + 1)) := by
    simp only [heap', pre_setPre, pre_setNext]
  have hnew : k + 1 ∉ List.range (k + 1) := fun hmem => absurd (List.mem_range.mp hmem) (lt_irrefl _)
  have hforward : Leads (next heap') (some 0) (List.range (k + 2)) (some 0) := by
    obtain ⟨r, hr⟩ := h.forward
    have hheap : next heap = Function.update (next q.heap) (k + 1) none :=
      Function.comp_update People.next q.heap (k + 1) _
    rw [← leads_update hnew (q := none), ← hheap, List.range_succ] at hr
    rw [List.range_succ, leads_append]
    refine ⟨some (k + 1), ?_, rfl, ?_⟩
    · rw [hnext, leads_update hnew, List.range_succ]
      exact hr.redirect fun hmem => absurd (List.mem_range.mp hmem) (lt_irrefl _)
    · rw [hnext]
      exact Function.update_self ..
  have hbackward : Leads (pre heap') (some (k + 1)) (List.range (k + 2)).reverse (some (k + 1)) := by
    obtain ⟨r, hr⟩ := h.backward
    have hheap : pre heap = Function.update (pre q.heap) (k + 1) none :=
      Function.comp_update People.pre q.heap (k + 1) _
    have hrange : List.range (k + 1) = 0 :: List.range' 1 k := by
      rw [List.range_eq_range', List.range'_succ]
    have hnew' : k + 1 ∉ (List.range (k + 1)).reverse := fun hmem => hnew (List.mem_reverse.mp hmem)
    rw [← leads_update hnew' (q := none), ← hheap, ← leads_update hnew' (q := some k), hrange,
      List.reverse_cons] at hr
    rw [List.range_succ, List.reverse_append, List.reverse_singleton, List.singleton_append]
    refine ⟨rfl, ?_⟩
    have hsecond : pre heap' (k + 1) = some k := by
      rw [hpre, Function.update_of_ne (Nat.succ_ne_zero k), Function.update_self]
    rw [hsecond, hrange, List.reverse_cons, hpre]
    refine hr.redirect fun hmem => ?_
    have hpos := (List.mem_range'_1.mp (List.mem_reverse.mp hmem)).1
    exact absurd hpos (by decide)
  have hrange : List.range (k + 2) = 0 :: List.range' 1 (k + 1) := by
    rw [List.range_eq_range', List.range'_succ]
  refine ⟨⟨heap', k + 2, some 0, some (k + 1)⟩, ?_, ⟨rfl, rfl, rfl, fun x hx => ?_, ⟨_, hforward⟩,
    ⟨_, hbackward⟩⟩, ⟨?_, ?_⟩⟩
  · simp only [addPeople, h.first, h.last, h.fresh]
    rfl
  · have hno : (heap' x).no = (heap x).no := by
      simp only [heap', no_setPre, no_setNext]
    rw [hno]
    by_cases hxk : x = k + 1
    · have hself : heap (k + 1) = ⟨(k + 1 : ℕ), none, none⟩ := Function.update_self ..
      rw [hxk, hself]
    · have hold : heap x = q.heap x := Function.update_of_ne hxk ..
      rw [hold, h.no x (by omega)]
  · rw [← hrange]
    refine ⟨List.nodup_range, ?_⟩
    rw [hrange] at hforward ⊢
    exact hforward
  · refine Ring.rotate_back ⟨?_, ?_⟩
    · rw [← List.reverse_cons, ← hrange]
      exact List.nodup_reverse.mpr List.nodup_range
    · have hhead : (List.range (k + 2)).reverse.head? = some (k + 1) := by
        rw [List.range_succ, List.reverse_append]
        rfl
      rw [← List.reverse_cons, ← hrange, hhead]
      exact hbackward

theorem init_returns {n : ℕ} (hn : 2 ≤ n) : ∃ q, start.init n = .ok q ∧ q.first = some 0 ∧
    (∀ x < n, (q.heap x).no = x) ∧ Circle q.heap 0 (List.range' 1 (n - 1)) := by
  let Added (k : ℕ) (q : JosephQuestion) : Prop := (k = 0 → q = start) ∧
    (0 < k → Seated q (k - 1)) ∧ (1 < k → Circle q.heap 0 (List.range' 1 (k - 1)))
  have hadd : ∀ k < n, ∀ q, Added k q → ∃ q', q.addPeople k = .ok q' ∧ Added (k + 1) q' := by
    intro k _ q hadded
    cases k with
    | zero =>
      obtain ⟨q', hq', hseated⟩ := seated_zero
      rw [hadded.1 rfl]
      exact ⟨q', hq', nofun, fun _ => hseated, fun hlt => absurd hlt (lt_irrefl 1)⟩
    | succ k =>
      obtain ⟨q', hq', hseated, hcircle⟩ := (hadded.2.1 k.succ_pos).add
      exact ⟨q', hq', nofun, fun _ => hseated, fun _ => hcircle⟩
  obtain ⟨q, hq, hseated⟩ := foldlM_range ⟨fun _ => rfl, nofun, nofun⟩ hadd
  have hlast := hseated.2.1 (by omega)
  refine ⟨q, ?_, hlast.first, fun x hx => hlast.no x (by omega), hseated.2.2 hn⟩
  rw [init, if_neg (by omega), if_neg (by omega), Int.toNat_natCast]
  exact hq

/-- `run` ends, and returns what the recurrence says. -/
theorem run_returns (n m : ℤ) (hn : 1 ≤ n) (hn' : n < 2 ^ 31) (hm : 1 ≤ m) (hm' : m < 2 ^ 31) :
    Returns (fun turns => run turns start n m) (1 + (J m.toNat n.toNat : ℤ)) := by
  lift n to ℕ using (by omega)
  lift m to ℕ using (by omega)
  obtain rfl | hn2 : n = 1 ∨ 2 ≤ n := by omega
  · exact returns_pure 1
  · obtain ⟨q, hinit, hfirst, hno, hcircle⟩ := init_returns hn2
    obtain ⟨k, rfl⟩ : ∃ k, n = k + 1 := ⟨n - 1, by omega⟩
    have hrange : 0 :: List.range' 1 k = List.range (k + 1) := by
      rw [List.range_eq_range', List.range'_succ]
    have hlt := J_lt m k
    have hs : (0 :: List.range' 1 k)[position m ((List.range' 1 k).length + 1) 1]? =
        some (J m (k + 1)) := by
      rw [List.length_range', position_one (by omega), hrange, List.getElem?_range hlt]
    have hlast := runFrom_returns (by omega) (by omega) (le_refl 1) (by omega) hcircle hs
    have hwrap : wrap ((q.heap (J m (k + 1))).no + 1) = 1 + (J m (k + 1) : ℤ) := by
      rw [hno _ hlt, wrap_of_int (by omega) (by omega), Int.add_comm]
    rw [hwrap] at hlast
    have hrun : (fun turns => run turns start (k + 1 : ℕ) m) =
        fun turns => runFrom m turns q.heap 1 0 := by
      funext turns
      rw [run, if_neg (by omega), hinit]
      change (deref q.first >>= fun current => runFrom m turns q.heap 1 current) = _
      rw [hfirst]
      rfl
    rw [hrun, Int.toNat_natCast, Int.toNat_natCast]
    exact hlast

theorem run_returns_five_three : Returns (fun turns => run turns start 5 3) 4 :=
  run_returns 5 3 (by decide) (by decide) (by decide) (by decide)

end JosephQuestion

end BigPlan.Algorithm
