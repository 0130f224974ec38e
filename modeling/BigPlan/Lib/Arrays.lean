import BigPlan.Lib.Fallible
import Mathlib.Data.List.Sort
import Mathlib.Logic.Equiv.Basic

/-!
# Arrays

Elements read, written and exchanged at an index, which fails outside the array. Which elements are
known to be at most which other ones is a relation between positions, and an exchange carries it
along.
-/
namespace BigPlan.Lib.Arrays

inductive Fault where
  | indexOutOfBounds
  | negativeArraySize
  deriving DecidableEq, Repr

variable {α : Type}

def read (arr : List α) (i : ℤ) : Except Fault α :=
  if 0 ≤ i then
    match arr[i.toNat]? with
    | some a => .ok a
    | none => .error .indexOutOfBounds
  else .error .indexOutOfBounds

def write (arr : List α) (i : ℤ) (a : α) : Except Fault (List α) :=
  if 0 ≤ i ∧ i < arr.length then .ok (arr.set i.toNat a) else .error .indexOutOfBounds

/-- `temp = arr[i]; arr[i] = arr[j]; arr[j] = temp;`. -/
def exchange (arr : List α) (i j : ℤ) : Except Fault (List α) := do
  let temp ← read arr i
  let a ← read arr j
  let arr ← write arr i a
  write arr j temp

section Access

variable {l : List α} {i j : ℕ}

theorem read_of_getElem? {a : α} (h : l[i]? = some a) : read l i = .ok a := by
  simp [read, h]

theorem exists_getElem? (h : i < l.length) : ∃ a, l[i]? = some a :=
  ⟨l[i], List.getElem?_eq_getElem h⟩

theorem read_of_le (h : l.length ≤ i) : read l i = .error .indexOutOfBounds := by
  simp [read, List.getElem?_eq_none h]

theorem write_of_lt (h : i < l.length) (a : α) : write l i a = .ok (l.set i a) := by
  simp [write, h]

theorem write_of_le (h : l.length ≤ i) (a : α) : write l i a = .error .indexOutOfBounds := by
  simp [write, h]

end Access

/-! ## Exchanges -/

/-- The elements at the two positions have changed places. -/
structure Exchanges (l l' : List α) (i j : ℕ) : Prop where
  perm : l'.Perm l
  get : ∀ k, l'[k]? = l[Equiv.swap i j k]?

theorem exchange_ok {l : List α} {i j : ℕ} (hi : i < l.length) (hj : j < l.length) :
    ∃ l', exchange l i j = .ok l' ∧ Exchanges l l' i j := by
  have hwrite : write (l.set i l[j]) j l[i] = .ok ((l.set i l[j]).set j l[i]) :=
    write_of_lt (by rwa [List.length_set]) _
  refine ⟨(l.set i l[j]).set j l[i], ?_, List.set_set_perm hi hj, fun k => ?_⟩
  · rw [exchange, read_of_getElem? (List.getElem?_eq_getElem hi),
      read_of_getElem? (List.getElem?_eq_getElem hj)]
    change write l i l[j] >>= (write · j l[i]) = _
    rw [write_of_lt hi]
    exact hwrite
  · rw [Equiv.swap_apply_def, List.getElem?_set, List.getElem?_set, List.length_set]
    by_cases hkj : k = j
    · subst hkj
      by_cases hki : k = i
      · subst hki
        simp [hi]
      · simp [hki, hj, List.getElem?_eq_getElem hi]
    · by_cases hki : k = i
      · subst hki
        simp [Ne.symm hkj, hi, List.getElem?_eq_getElem hj]
      · simp [Ne.symm hkj, Ne.symm hki, hkj, hki]

/-! ## Order -/

variable [LinearOrder α] {P P' : ℕ → ℕ → Prop} {l l' : List α} {i j : ℕ}

/-- The elements at related positions are in order. -/
def InOrder (P : ℕ → ℕ → Prop) (l : List α) : Prop :=
  ∀ a b, P a b → ∀ x ∈ l[a]?, ∀ y ∈ l[b]?, x ≤ y

theorem InOrder.mono (h : InOrder P l) (hP : ∀ a b, P' a b → P a b) : InOrder P' l :=
  fun a b hab => h a b (hP a b hab)

/-- One more pair of elements has been compared. -/
theorem InOrder.compared (h : InOrder P l) {x y : α} (hx : l[i]? = some x) (hy : l[j]? = some y)
    (hxy : x ≤ y) : InOrder (fun a b => P a b ∨ a = i ∧ b = j) l := by
  rintro a b (hab | ⟨rfl, rfl⟩) x' hx' y' hy'
  · exact h a b hab x' hx' y' hy'
  · rw [hx, Option.mem_some_iff] at hx'
    rw [hy, Option.mem_some_iff] at hy'
    subst hx' hy'
    exact hxy

theorem InOrder.trans (h : InOrder P l) (hj : j < l.length)
    (hP : ∀ a b, P' a b → P a b ∨ a = b ∨ P a j ∧ P j b) : InOrder P' l := by
  intro a b hab x hx y hy
  obtain hP | rfl | ⟨haj, hjb⟩ := hP a b hab
  · exact h a b hP x hx y hy
  · exact le_of_eq (Option.some.inj (hx.symm.trans hy))
  · obtain ⟨z, hz⟩ := exists_getElem? hj
    exact le_trans (h a j haj x hx z hz) (h j b hjb z hz y hy)

theorem InOrder.exchange (h : InOrder P l) (he : Exchanges l l' i j)
    (hP : ∀ a b, P' a b → P (Equiv.swap i j a) (Equiv.swap i j b)) : InOrder P' l' := by
  intro a b hab x hx y hy
  rw [he.get] at hx hy
  exact h _ _ (hP a b hab) x hx y hy

theorem InOrder.pairwise (h : InOrder (· < ·) l) : l.Pairwise (· ≤ ·) :=
  List.pairwise_iff_getElem.mpr fun a b ha hb hab =>
    h a b hab l[a] (List.getElem?_eq_getElem ha) l[b] (List.getElem?_eq_getElem hb)

/-- There is one way to sort a list. -/
theorem eq_mergeSort (h : l.Pairwise (· ≤ ·)) (hperm : l.Perm l') : l = l'.mergeSort (· ≤ ·) := by
  have hsorted := List.pairwise_mergeSort' (r := (· ≤ · : α → α → Prop)) l'
  exact (hperm.trans (List.mergeSort_perm l' _).symm).eq_of_pairwise' h hsorted

end BigPlan.Lib.Arrays
