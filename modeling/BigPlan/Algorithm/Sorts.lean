import BigPlan.Lib.Arrays

/-!
# The sorts

Bubble, insertion and selection sort, in place. They leave the same sorted array, and stay within it.
-/
namespace BigPlan.Algorithm

open Lib Lib.Arrays Lib.Fallible

variable {arr arr' : List ℤ} {i j n : ℕ}

/-! ## `Bubble` -/

namespace Bubble

/-- `if (arr[j - 1] > arr[j])`, and the exchange. -/
def turn (arr : List ℤ) (j : ℕ) : Except Fault (List ℤ) := do
  let before ← read arr (j - 1)
  let current ← read arr j
  if before > current then exchange arr j (j - 1) else return arr

def sort (arr : List ℤ) : Except Fault (List ℤ) :=
  (List.range arr.length).foldlM (fun arr' i =>
    (List.range (arr.length - i - 1)).foldlM (fun arr' j => turn arr' (j + 1)) arr') arr

/-- The elements from `n` on are the greatest ones, in order, and that at `j` is the greatest one up
to there. -/
def Known (n j : ℕ) (a b : ℕ) : Prop := a < b ∧ n ≤ b ∨ a ≤ j ∧ b = j

theorem turn_keeps (hj : j + 1 < n) (hn : n ≤ arr.length) (h : InOrder (Known n j) arr) :
    ∃ arr', turn arr (j + 1 : ℕ) = .ok arr' ∧ arr'.Perm arr ∧ InOrder (Known n (j + 1)) arr' := by
  obtain ⟨before, hbefore⟩ := exists_getElem? (show j < arr.length by omega)
  obtain ⟨current, hcurrent⟩ := exists_getElem? (show j + 1 < arr.length by omega)
  have hturn : turn arr (j + 1 : ℕ) =
      if before > current then exchange arr (j + 1 : ℕ) j else .ok arr := by
    have hpred : ((j + 1 : ℕ) : ℤ) - 1 = j := by omega
    rw [turn, hpred, read_of_getElem? hbefore, read_of_getElem? hcurrent]
    rfl
  rw [hturn]
  by_cases hgt : before > current
  · rw [if_pos hgt]
    obtain ⟨arr', hok, he⟩ := exchange_ok (l := arr) (show j + 1 < arr.length by omega)
      (show j < arr.length by omega)
    refine ⟨arr', hok, he.perm, (h.compared hcurrent hbefore hgt.le).exchange he fun a b hab => ?_⟩
    simp only [Known, Equiv.swap_apply_def] at hab ⊢
    grind
  · rw [if_neg hgt]
    refine ⟨arr, rfl, List.Perm.refl _, (h.compared hbefore hcurrent (not_lt.mp hgt)).trans
      (show j < arr.length by omega) fun a b hab => ?_⟩
    simp only [Known] at hab ⊢
    grind

/-- One pass over the first `n` elements brings the greatest one to the end of them. -/
theorem pass_keeps (hn : 0 < n) (hlength : n ≤ arr.length)
    (h : InOrder (fun a b => a < b ∧ n ≤ b) arr) : ∃ arr',
      (List.range (n - 1)).foldlM (fun arr j => turn arr (j + 1 : ℕ)) arr = .ok arr' ∧
        arr'.Perm arr ∧ InOrder (fun a b => a < b ∧ n - 1 ≤ b) arr' := by
  have hstart : InOrder (Known n 0) arr := by
    refine h.trans (show 0 < arr.length by omega) fun a b hab => ?_
    simp only [Known] at hab
    omega
  obtain ⟨arr', hpass, hperm, hinorder⟩ := foldlM_range (n := n - 1)
    (I := fun j arr' => arr'.Perm arr ∧ InOrder (Known n j) arr') ⟨List.Perm.refl _, hstart⟩
    fun j hj arr' ⟨hperm, hinorder⟩ => by
      obtain ⟨arr'', hturn, hperm', hinorder'⟩ := turn_keeps (show j + 1 < n by omega)
        (hperm.length_eq ▸ hlength) hinorder
      exact ⟨arr'', hturn, hperm'.trans hperm, hinorder'⟩
  refine ⟨arr', hpass, hperm, hinorder.mono fun a b hab => ?_⟩
  simp only [Known]
  omega

theorem sort_keeps (arr : List ℤ) :
    ∃ arr', sort arr = .ok arr' ∧ arr'.Perm arr ∧ InOrder (· < ·) arr' := by
  obtain ⟨arr', hsort, hperm, hinorder⟩ := foldlM_range
    (f := fun arr' i => (List.range (arr.length - i - 1)).foldlM (fun arr j => turn arr (j + 1 : ℕ)) arr')
    (I := fun i arr' => arr'.Perm arr ∧ InOrder (fun a b => a < b ∧ arr.length - i ≤ b) arr')
    (s := arr) (n := arr.length) ⟨List.Perm.refl _, fun a b hab x hx y hy => by
      have hlt := (List.getElem?_eq_some_iff.mp hy).1
      omega⟩
    fun i hi arr' ⟨hperm, hinorder⟩ => by
      obtain ⟨arr'', hpass, hperm', hinorder'⟩ := pass_keeps (show 0 < arr.length - i by omega)
        (show arr.length - i ≤ arr'.length by rw [hperm.length_eq]; omega) hinorder
      exact ⟨arr'', hpass, hperm'.trans hperm, by rwa [Nat.sub_sub] at hinorder'⟩
  refine ⟨arr', hsort, hperm, hinorder.mono fun a b hab => ?_⟩
  omega

end Bubble

/-! ## `Insert` -/

namespace Insert

/-- `for (int j = i; j > 0; j--)`, left when the element before is not greater. -/
def sink (arr : List ℤ) : ℕ → Except Fault (List ℤ)
  | 0 => return arr
  | j + 1 => do
    let current ← read arr (j + 1)
    let before ← read arr j
    if current < before then do
      let arr ← exchange arr (j + 1) j
      sink arr j
    else return arr

def sort (arr : List ℤ) : Except Fault (List ℤ) :=
  (List.range (arr.length - 1)).foldlM (fun arr' i => sink arr' (i + 1)) arr

/-- The first elements, up to that at `i`, are in order, if what stands before that at `j` is left
out. -/
def Known (i j : ℕ) (a b : ℕ) : Prop := a < b ∧ b ≤ i ∧ b ≠ j

theorem sink_keeps (hj : j ≤ i) (hi : i < arr.length) (h : InOrder (Known i j) arr) :
    ∃ arr', sink arr j = .ok arr' ∧ arr'.Perm arr ∧ InOrder (fun a b => a < b ∧ b ≤ i) arr' := by
  induction j generalizing arr with
  | zero =>
    refine ⟨arr, rfl, List.Perm.refl _, h.mono fun a b hab => ?_⟩
    simp only [Known]
    omega
  | succ j ih =>
    obtain ⟨before, hbefore⟩ := exists_getElem? (show j < arr.length by omega)
    obtain ⟨current, hcurrent⟩ := exists_getElem? (show j + 1 < arr.length by omega)
    have hsink : sink arr (j + 1) = if current < before then (do
        let arr ← exchange arr (j + 1 : ℕ) j
        sink arr j) else .ok arr := by
      have hread : read arr ((j : ℤ) + 1) = .ok current := read_of_getElem? hcurrent
      rw [sink, hread, read_of_getElem? hbefore]
      rfl
    rw [hsink]
    by_cases hlt : current < before
    · rw [if_pos hlt]
      obtain ⟨arr₁, hok, he⟩ := exchange_ok (l := arr) (show j + 1 < arr.length by omega)
        (show j < arr.length by omega)
      have hknown : InOrder (Known i j) arr₁ := by
        refine (h.compared hcurrent hbefore hlt.le).exchange he fun a b hab => ?_
        simp only [Known, Equiv.swap_apply_def] at hab ⊢
        grind
      obtain ⟨arr₂, hrest, hperm, hinorder⟩ := ih (by omega) (he.perm.length_eq ▸ hi) hknown
      rw [hok]
      exact ⟨arr₂, hrest, hperm.trans he.perm, hinorder⟩
    · rw [if_neg hlt]
      refine ⟨arr, rfl, List.Perm.refl _, (h.compared hbefore hcurrent (not_lt.mp hlt)).trans
        (show j < arr.length by omega) fun a b hab => ?_⟩
      simp only [Known] at hab ⊢
      grind

theorem sort_keeps (arr : List ℤ) :
    ∃ arr', sort arr = .ok arr' ∧ arr'.Perm arr ∧ InOrder (· < ·) arr' := by
  obtain ⟨arr', hsort, hperm, hinorder⟩ := foldlM_range (n := arr.length - 1) (s := arr)
    (f := fun arr' i => sink arr' (i + 1))
    (I := fun i arr' => arr'.Perm arr ∧ InOrder (fun a b => a < b ∧ b ≤ i) arr')
    ⟨List.Perm.refl _, fun a b hab => by omega⟩
    fun i hi arr' ⟨hperm, hinorder⟩ => by
      have hlength : i + 1 < arr'.length := by
        rw [hperm.length_eq]
        omega
      have hknown : InOrder (Known (i + 1) (i + 1)) arr' := by
        refine hinorder.mono fun a b hab => ?_
        simp only [Known] at hab
        omega
      obtain ⟨arr'', hsink, hperm', hinorder'⟩ := sink_keeps (le_refl _) hlength hknown
      exact ⟨arr'', hsink, hperm'.trans hperm, hinorder'⟩
  refine ⟨arr', hsort, hperm, fun a b hab x hx y hy => hinorder a b ?_ x hx y hy⟩
  have hlt := (List.getElem?_eq_some_iff.mp hy).1
  rw [hperm.length_eq] at hlt
  omega

end Insert

/-! ## `Select` -/

namespace Select

/-- A turn of the inner loop. -/
def closer (arr : List ℤ) (minIndex j : ℕ) : Except Fault ℕ := do
  let a ← read arr j
  let least ← read arr minIndex
  return if a < least then j else minIndex

def minIndex (arr : List ℤ) (i : ℕ) : Except Fault ℕ :=
  (List.range (arr.length - (i + 1))).foldlM (fun minIndex k => closer arr minIndex (i + 1 + k)) i

def turn (arr : List ℤ) (i : ℕ) : Except Fault (List ℤ) := do
  let minIndex ← minIndex arr i
  if minIndex ≠ i then exchange arr i minIndex else return arr

def sort (arr : List ℤ) : Except Fault (List ℤ) := (List.range arr.length).foldlM turn arr

/-- The first elements are in order, and none of the others is less than one of them. -/
def Known (i : ℕ) (a b : ℕ) : Prop := a < b ∧ a < i

theorem minIndex_ok (hi : i < arr.length) (h : InOrder (Known i) arr) : ∃ m, minIndex arr i = .ok m ∧
    (i ≤ m ∧ m < arr.length) ∧ InOrder (fun a b => Known i a b ∨ a = m ∧ i ≤ b) arr := by
  obtain ⟨m, hm, hbounds, hinorder⟩ := foldlM_range (n := arr.length - (i + 1)) (s := i)
    (f := fun m k => closer arr m (i + 1 + k))
    (I := fun k m => (i ≤ m ∧ m < arr.length) ∧
      InOrder (fun a b => Known i a b ∨ a = m ∧ i ≤ b ∧ b < i + 1 + k) arr)
    ⟨⟨le_refl _, hi⟩, h.trans hi fun a b hab => by grind⟩
    fun k hk m ⟨hbounds, hinorder⟩ => by
      obtain ⟨a, ha⟩ := exists_getElem? (show i + 1 + k < arr.length by omega)
      obtain ⟨least, hleast⟩ := exists_getElem? hbounds.2
      have hcloser : closer arr m (i + 1 + k) = .ok (if a < least then i + 1 + k else m) := by
        rw [closer, read_of_getElem? ha, read_of_getElem? hleast]
        rfl
      refine ⟨_, hcloser, ?_⟩
      by_cases hlt : a < least
      · rw [if_pos hlt]
        refine ⟨by omega, (hinorder.compared ha hleast hlt.le).trans hbounds.2 fun a b hab => ?_⟩
        grind
      · rw [if_neg hlt]
        refine ⟨hbounds, (hinorder.compared hleast ha (not_lt.mp hlt)).mono fun a b hab => ?_⟩
        grind
  refine ⟨m, hm, hbounds, fun a b hab x hx y hy => hinorder a b ?_ x hx y hy⟩
  have hlt := (List.getElem?_eq_some_iff.mp hy).1
  grind

theorem turn_keeps (hi : i < arr.length) (h : InOrder (Known i) arr) :
    ∃ arr', turn arr i = .ok arr' ∧ arr'.Perm arr ∧ InOrder (Known (i + 1)) arr' := by
  obtain ⟨m, hm, hbounds, hinorder⟩ := minIndex_ok hi h
  have hturn : turn arr i = if m ≠ i then exchange arr i m else .ok arr := by
    rw [turn, hm]
    rfl
  rw [hturn]
  by_cases hne : m ≠ i
  · rw [if_pos hne]
    obtain ⟨arr', hok, he⟩ := exchange_ok hi hbounds.2
    refine ⟨arr', hok, he.perm, hinorder.exchange he fun a b hab => ?_⟩
    simp only [Known, Equiv.swap_apply_def] at hab ⊢
    grind
  · rw [if_neg hne]
    refine ⟨arr, rfl, List.Perm.refl _, hinorder.mono fun a b hab => ?_⟩
    simp only [Known] at hab ⊢
    omega

theorem sort_keeps (arr : List ℤ) :
    ∃ arr', sort arr = .ok arr' ∧ arr'.Perm arr ∧ InOrder (· < ·) arr' := by
  obtain ⟨arr', hsort, hperm, hinorder⟩ := foldlM_range (n := arr.length) (s := arr) (f := turn)
    (I := fun i arr' => arr'.Perm arr ∧ InOrder (Known i) arr')
    ⟨List.Perm.refl _, fun a b hab => absurd hab.2 (Nat.not_lt_zero a)⟩
    fun i hi arr' ⟨hperm, hinorder⟩ => by
      obtain ⟨arr'', hturn, hperm', hinorder'⟩ := turn_keeps (hperm.length_eq ▸ hi) hinorder
      exact ⟨arr'', hturn, hperm'.trans hperm, hinorder'⟩
  refine ⟨arr', hsort, hperm, fun a b hab x hx y hy => hinorder a b ⟨hab, ?_⟩ x hx y hy⟩
  have hlt := (List.getElem?_eq_some_iff.mp hy).1
  rw [hperm.length_eq] at hlt
  omega

end Select

/-! ## All of them -/

theorem eq_ok_mergeSort {result : Except Fault (List ℤ)}
    (h : ∃ arr', result = .ok arr' ∧ arr'.Perm arr ∧ InOrder (· < ·) arr') :
    result = .ok (arr.mergeSort (· ≤ ·)) := by
  obtain ⟨arr', rfl, hperm, hinorder⟩ := h
  rw [eq_mergeSort hinorder.pairwise hperm]

/-- The three sorts leave the same sorted array. -/
theorem exists_sorted (arr : List ℤ) : ∃ sorted : List ℤ, sorted.Pairwise (· ≤ ·) ∧ sorted.Perm arr ∧
    Bubble.sort arr = .ok sorted ∧ Insert.sort arr = .ok sorted ∧ Select.sort arr = .ok sorted :=
  ⟨arr.mergeSort (· ≤ ·), List.pairwise_mergeSort' _ arr, List.mergeSort_perm arr _,
    eq_ok_mergeSort (Bubble.sort_keeps arr), eq_ok_mergeSort (Insert.sort_keeps arr),
    eq_ok_mergeSort (Select.sort_keeps arr)⟩

end BigPlan.Algorithm
