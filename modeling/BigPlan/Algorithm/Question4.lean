import BigPlan.Lib.Fallible
import BigPlan.Lib.Java
import Mathlib.Algebra.Field.Rat
import Mathlib.Data.List.Sort
import Mathlib.Tactic.NormNum
import Mathlib.Tactic.Ring

/-!
# The median of two sorted arrays

The arrays are merged by two indices. The middle elements are added as ints before the sum is
halved, so the result is not the median if the sum is no int.
-/
namespace BigPlan.Algorithm.Question4

open Lib.Fallible Lib.Java

/-! ## `findMedianSortedArrays` -/

def outOfBounds : String := "ArrayIndexOutOfBounds"

/-- `nums[index]`. -/
def get (nums : List JInt) (index : ℤ) : Except String JInt :=
  if 0 ≤ index then
    match nums[index.toNat]? with
    | some a => .ok a
    | none => .error outOfBounds
  else .error outOfBounds

/-- `nums[index] = a`. -/
def put (nums : List JInt) (index : ℕ) (a : JInt) : Except String (List JInt) :=
  if index < nums.length then .ok (nums.set index a) else .error outOfBounds

/-- The new array, and the indices of the next elements of the others. -/
structure Merging where
  newNums : List JInt
  nums1Index : ℕ
  nums2Index : ℕ

/-- One turn of the loop. -/
def turn (nums1 nums2 : List JInt) (s : Merging) (i : ℕ) : Except String Merging :=
  if s.nums1Index = nums1.length then do
    let b ← get nums2 s.nums2Index
    let newNums ← put s.newNums i b
    return { s with newNums, nums2Index := s.nums2Index + 1 }
  else if s.nums2Index = nums2.length then do
    let a ← get nums1 s.nums1Index
    let newNums ← put s.newNums i a
    return { s with newNums, nums1Index := s.nums1Index + 1 }
  else do
    let a ← get nums1 s.nums1Index
    let b ← get nums2 s.nums2Index
    if a.toInt ≤ b.toInt then
      let newNums ← put s.newNums i a
      return { s with newNums, nums1Index := s.nums1Index + 1 }
    else
      let newNums ← put s.newNums i b
      return { s with newNums, nums2Index := s.nums2Index + 1 }

/-- A half of an int is a double. -/
def findMedianSortedArrays (nums1 nums2 : List JInt) : Except String ℚ :=
  let length := wrap (nums1.length + nums2.length)
  if length < 0 then .error "NegativeArraySize"
  else do
    let s ← (List.range length.toNat).foldlM (turn nums1 nums2)
      ⟨List.replicate length.toNat 0, 0, 0⟩
    let middle := length.tdiv 2
    if length.tmod 2 = 0 then
      let a ← get s.newNums (middle - 1)
      let b ← get s.newNums middle
      return (a + b).toInt / 2
    else
      let a ← get s.newNums middle
      return a.toInt

/-! ## The merged array -/

variable {nums1 nums2 : List JInt}

/-- The elements of both arrays in ascending order. -/
def merged (nums1 nums2 : List JInt) : List JInt :=
  nums1.merge nums2 fun a b => decide (a.toInt ≤ b.toInt)

/-- The elements before the indices have been merged. -/
structure Merged (nums1 nums2 : List JInt) (i : ℕ) (s : Merging) : Prop where
  count : s.nums1Index + s.nums2Index = i
  left : s.nums1Index ≤ nums1.length
  right : s.nums2Index ≤ nums2.length
  newNums : ∃ done, done.length = i ∧
    merged nums1 nums2 = done ++ merged (nums1.drop s.nums1Index) (nums2.drop s.nums2Index) ∧
    s.newNums = done ++ List.replicate (nums1.length + nums2.length - i) 0

theorem merged_start : Merged nums1 nums2 0
    ⟨List.replicate (nums1.length + nums2.length) 0, 0, 0⟩ :=
  ⟨rfl, Nat.zero_le _, Nat.zero_le _, [], rfl, rfl, rfl⟩

theorem get_eq (nums : List JInt) (index : ℕ) (h : index < nums.length) :
    ∃ a, get nums index = .ok a ∧ nums.drop index = a :: nums.drop (index + 1) := by
  refine ⟨nums[index], ?_, List.drop_eq_getElem_cons h⟩
  rw [get, if_pos (Int.natCast_nonneg index), Int.toNat_natCast, List.getElem?_eq_getElem h]

theorem put_eq {done : List JInt} {n : ℕ} (hn : 0 < n) (a : JInt) :
    put (done ++ List.replicate n 0) done.length a =
      .ok ((done ++ [a]) ++ List.replicate (n - 1) 0) := by
  obtain ⟨n, rfl⟩ := Nat.exists_eq_succ_of_ne_zero hn.ne'
  rw [put, if_pos (by simp), List.set_append_right _ _ (le_refl _), Nat.sub_self,
    List.append_assoc]
  rfl

/-- The next element is the smaller one of the two, the first one if they are equal. -/
theorem Merged.turn {i : ℕ} {s : Merging} (h : Merged nums1 nums2 i s)
    (hi : i < nums1.length + nums2.length) :
    ∃ s', Question4.turn nums1 nums2 s i = .ok s' ∧ Merged nums1 nums2 (i + 1) s' := by
  obtain ⟨hcount, hleft, hright, done, hlength, hmerged, hnew⟩ := h
  have hput (a : JInt) : put s.newNums i a =
      .ok ((done ++ [a]) ++ List.replicate (nums1.length + nums2.length - (i + 1)) 0) := by
    rw [hnew, ← hlength, put_eq (by omega), Nat.sub_sub]
  have htake (a : JInt) (index1 index2 : ℕ) (hsum : index1 + index2 = i + 1)
      (h1 : index1 ≤ nums1.length) (h2 : index2 ≤ nums2.length)
      (hrest : merged (nums1.drop s.nums1Index) (nums2.drop s.nums2Index) =
        a :: merged (nums1.drop index1) (nums2.drop index2)) :
      Merged nums1 nums2 (i + 1)
        ⟨(done ++ [a]) ++ List.replicate (nums1.length + nums2.length - (i + 1)) 0, index1,
          index2⟩ := by
    refine ⟨hsum, h1, h2, _, ?_, ?_, rfl⟩
    · rw [List.length_append, hlength]
      rfl
    · rw [hmerged, hrest, List.append_cons]
  by_cases hend1 : s.nums1Index = nums1.length
  · obtain ⟨b, hb, hdrop2⟩ := get_eq nums2 s.nums2Index (by omega)
    refine ⟨_, ?_, htake b s.nums1Index (s.nums2Index + 1) (by omega)
      hleft (by omega) ?_⟩
    · rw [Question4.turn, if_pos hend1, hb]
      change (put s.newNums i b >>= fun newNums => _) = _
      rw [hput]
      rfl
    · rw [hend1, List.drop_length, merged, merged, List.nil_merge, List.nil_merge, hdrop2]
  · obtain ⟨a, ha, hdrop1⟩ := get_eq nums1 s.nums1Index (by omega)
    by_cases hend2 : s.nums2Index = nums2.length
    · refine ⟨_, ?_, htake a (s.nums1Index + 1) s.nums2Index
        (by omega) (by omega) hright ?_⟩
      · rw [Question4.turn, if_neg hend1, if_pos hend2, ha]
        change (put s.newNums i a >>= fun newNums => _) = _
        rw [hput]
        rfl
      · rw [hend2, List.drop_length, merged, merged, List.merge_right, List.merge_right, hdrop1]
    · obtain ⟨b, hb, hdrop2⟩ := get_eq nums2 s.nums2Index (by omega)
      by_cases hle : a.toInt ≤ b.toInt
      · refine ⟨_, ?_, htake a (s.nums1Index + 1) s.nums2Index
          (by omega) (by omega) hright ?_⟩
        · rw [Question4.turn, if_neg hend1, if_neg hend2, ha, hb]
          refine (if_pos hle).trans ?_
          rw [hput]
          rfl
        · rw [hdrop1, hdrop2]
          exact List.cons_merge_cons_pos _ _ _ (decide_eq_true hle)
      · refine ⟨_, ?_, htake b s.nums1Index (s.nums2Index + 1) (by omega) hleft (by omega) ?_⟩
        · rw [Question4.turn, if_neg hend1, if_neg hend2, ha, hb]
          refine (if_neg hle).trans ?_
          rw [hput]
          rfl
        · rw [hdrop1, hdrop2]
          refine List.cons_merge_cons_neg _ _ _ ?_
          rw [decide_eq_true_iff]
          exact hle

theorem turns_merged (nums1 nums2 : List JInt) :
    ∃ s, (List.range (nums1.length + nums2.length)).foldlM (turn nums1 nums2)
        ⟨List.replicate (nums1.length + nums2.length) 0, 0, 0⟩ = .ok s ∧
      s.newNums = merged nums1 nums2 := by
  obtain ⟨s, hs, hcount, hleft, hright, done, -, hmerged, hnew⟩ :=
    foldlM_range merged_start fun i hi s (h : Merged nums1 nums2 i s) => h.turn hi
  refine ⟨s, hs, ?_⟩
  have hend1 : s.nums1Index = nums1.length := by omega
  have hend2 : s.nums2Index = nums2.length := by omega
  rw [hend1, hend2, List.drop_length, List.drop_length] at hmerged
  rw [hnew, hmerged, Nat.sub_self, merged, List.nil_merge, List.replicate_zero]

/-! ## The median -/

def Ascending (nums : List JInt) : Prop := nums.Pairwise fun a b => a.toInt ≤ b.toInt

/-- The elements of both arrays, with repetitions, in ascending order. -/
def sortedUnion (nums1 nums2 : List JInt) : List ℤ :=
  ((nums1 ++ nums2).map BitVec.toInt).mergeSort

/-- The elements in the middle are added without a limit. -/
def middleSum (nums1 nums2 : List JInt) : Option ℤ := do
  let length := nums1.length + nums2.length
  let lower ← (sortedUnion nums1 nums2)[(length - 1) / 2]?
  let upper ← (sortedUnion nums1 nums2)[length / 2]?
  return lower + upper

theorem map_merged (h1 : Ascending nums1) (h2 : Ascending nums2) :
    (merged nums1 nums2).map BitVec.toInt = sortedUnion nums1 nums2 := by
  have hsorted : (merged nums1 nums2).Pairwise fun a b => decide (a.toInt ≤ b.toInt) = true := by
    refine List.pairwise_merge (fun a b c hab hbc => ?_) (fun a b => ?_) _ _
      (h1.imp fun hab => decide_eq_true hab) (h2.imp fun hab => decide_eq_true hab)
    · exact decide_eq_true ((of_decide_eq_true hab).trans (of_decide_eq_true hbc))
    · rw [Bool.or_eq_true, decide_eq_true_iff, decide_eq_true_iff]
      exact le_total _ _
  have hperm : ((merged nums1 nums2).map BitVec.toInt).Perm (sortedUnion nums1 nums2) :=
    ((List.merge_perm_append _).map _).trans (List.mergeSort_perm _ _).symm
  refine hperm.eq_of_pairwise' (r := (· ≤ ·)) ?_ ?_
  · exact List.pairwise_map.mpr (hsorted.imp fun hab => of_decide_eq_true hab)
  · exact List.pairwise_mergeSort' _ _

theorem length_merged (nums1 nums2 : List JInt) :
    (merged nums1 nums2).length = nums1.length + nums2.length := List.length_merge _ _ _

theorem get_merged (h1 : Ascending nums1) (h2 : Ascending nums2) {k : ℕ}
    (hk : k < nums1.length + nums2.length) :
    ∃ a, get (merged nums1 nums2) k = .ok a ∧ (sortedUnion nums1 nums2)[k]? = some a.toInt := by
  rw [← length_merged] at hk
  refine ⟨(merged nums1 nums2)[k], ?_, ?_⟩
  · rw [get, if_pos (Int.natCast_nonneg k), Int.toNat_natCast, List.getElem?_eq_getElem hk]
  · rw [← map_merged h1 h2, List.getElem?_map, List.getElem?_eq_getElem hk, Option.map_some]

/-- What the method does with the merged array, if its length is an int. -/
theorem findMedianSortedArrays_eq (hlt : nums1.length + nums2.length < 2 ^ 31) :
    findMedianSortedArrays nums1 nums2 =
      if ((nums1.length + nums2.length : ℕ) : ℤ).tmod 2 = 0 then do
        let a ← get (merged nums1 nums2) (((nums1.length + nums2.length : ℕ) : ℤ).tdiv 2 - 1)
        let b ← get (merged nums1 nums2) (((nums1.length + nums2.length : ℕ) : ℤ).tdiv 2)
        return ((a + b).toInt / 2 : ℚ)
      else do
        let a ← get (merged nums1 nums2) (((nums1.length + nums2.length : ℕ) : ℤ).tdiv 2)
        return (a.toInt : ℚ) := by
  obtain ⟨s, hs, hmerged⟩ := turns_merged nums1 nums2
  have hwrap : wrap (nums1.length + nums2.length) = ((nums1.length + nums2.length : ℕ) : ℤ) := by
    rw [wrap_of_int (by omega) (by omega), Nat.cast_add]
  simp only [findMedianSortedArrays, hwrap, Int.toNat_natCast, hs, ← hmerged]
  exact if_neg (by omega)

theorem findMedianSortedArrays_even (h1 : Ascending nums1) (h2 : Ascending nums2) {k : ℕ}
    (hlength : nums1.length + nums2.length = 2 * k) (hk : 0 < k) (hlt : 2 * k < 2 ^ 31) :
    ∃ sum : ℤ, middleSum nums1 nums2 = some sum ∧
      findMedianSortedArrays nums1 nums2 = .ok (wrap sum / 2) := by
  obtain ⟨a, ha, hlower⟩ := get_merged h1 h2 (k := k - 1) (by omega)
  obtain ⟨b, hb, hupper⟩ := get_merged h1 h2 (k := k) (by omega)
  have hlo : (2 * k - 1) / 2 = k - 1 := by omega
  have hhi : 2 * k / 2 = k := by omega
  refine ⟨a.toInt + b.toInt, ?_, ?_⟩
  · simp only [middleSum, hlength, hlo, hhi, hlower, hupper]
    rfl
  · have hmod : ((2 * k : ℕ) : ℤ).tmod 2 = 0 := by
      rw [Int.tmod_eq_emod_of_nonneg (Int.natCast_nonneg _)]
      omega
    have hdiv : ((2 * k : ℕ) : ℤ).tdiv 2 = k := by
      rw [Int.tdiv_eq_ediv_of_nonneg (Int.natCast_nonneg _)]
      omega
    have hpred : (k : ℤ) - 1 = ((k - 1 : ℕ) : ℤ) := by omega
    rw [findMedianSortedArrays_eq (by omega), hlength, if_pos hmod, hdiv, hpred, ha, hb, wrap,
      ← BitVec.toInt_add]
    rfl

theorem findMedianSortedArrays_odd (h1 : Ascending nums1) (h2 : Ascending nums2) {k : ℕ}
    (hlength : nums1.length + nums2.length = 2 * k + 1) (hlt : 2 * k + 1 < 2 ^ 31) :
    ∃ a : ℤ, middleSum nums1 nums2 = some (a + a) ∧
      findMedianSortedArrays nums1 nums2 = .ok a := by
  obtain ⟨a, ha, hmiddle⟩ := get_merged h1 h2 (k := k) (by omega)
  have hlo : (2 * k + 1 - 1) / 2 = k := by omega
  have hhi : (2 * k + 1) / 2 = k := by omega
  refine ⟨a.toInt, ?_, ?_⟩
  · simp only [middleSum, hlength, hlo, hhi, hmiddle]
    rfl
  · have hmod : ((2 * k + 1 : ℕ) : ℤ).tmod 2 ≠ 0 := by
      rw [Int.tmod_eq_emod_of_nonneg (Int.natCast_nonneg _)]
      omega
    have hdiv : ((2 * k + 1 : ℕ) : ℤ).tdiv 2 = k := by
      rw [Int.tdiv_eq_ediv_of_nonneg (Int.natCast_nonneg _)]
      omega
    rw [findMedianSortedArrays_eq (by omega), hlength, if_neg hmod, hdiv, ha]
    rfl

/-- Twice the result is the sum of the elements in the middle. -/
def IsMedian (nums1 nums2 : List JInt) : Prop :=
  ∃ (v : ℚ) (sum : ℤ), findMedianSortedArrays nums1 nums2 = .ok v ∧
    middleSum nums1 nums2 = some sum ∧ 2 * v = sum

theorem wrap_eq_self_iff {x : ℤ} : wrap x = x ↔ -2 ^ 31 ≤ x ∧ x < 2 ^ 31 := by
  constructor
  · intro h
    have hlo := Int.le_bmod (x := x) (show 0 < 2 ^ 32 by decide)
    have hhi := Int.bmod_lt (x := x) (show 0 < 2 ^ 32 by decide)
    rw [wrap] at h
    rw [h] at hlo hhi
    omega
  · exact fun h => wrap_of_int h.1 h.2

/-- The method returns the median if and only if the new array can be made, and the sum of the
elements in the middle is an int if there are two of them. -/
theorem isMedian_iff (nums1 nums2 : List JInt) (h1 : Ascending nums1) (h2 : Ascending nums2)
    (hlt1 : nums1.length < 2 ^ 31) (hlt2 : nums2.length < 2 ^ 31)
    (hpos : 1 ≤ nums1.length + nums2.length) :
    IsMedian nums1 nums2 ↔ nums1.length + nums2.length < 2 ^ 31 ∧
      ((nums1.length + nums2.length) % 2 = 1 ∨
        ∃ sum, middleSum nums1 nums2 = some sum ∧ -2 ^ 31 ≤ sum ∧ sum < 2 ^ 31) := by
  by_cases hlt : nums1.length + nums2.length < 2 ^ 31
  · obtain ⟨k, hlength | hlength⟩ := Nat.even_or_odd' (nums1.length + nums2.length)
    · obtain ⟨sum, hsum, hresult⟩ :=
        findMedianSortedArrays_even h1 h2 hlength (by omega) (hlength ▸ hlt)
      constructor
      · intro h
        obtain ⟨v, sum', hv, hsum', htwice⟩ := h
        rw [hresult] at hv
        rw [hsum] at hsum'
        cases hv
        cases hsum'
        refine ⟨hlt, Or.inr ⟨sum, hsum, wrap_eq_self_iff.mp ?_⟩⟩
        have hcast : ((wrap sum : ℤ) : ℚ) = sum := by
          rw [← htwice]
          ring
        exact_mod_cast hcast
      · intro h
        obtain hodd | ⟨sum', hsum', hint⟩ := h.2
        · omega
        · rw [hsum] at hsum'
          cases hsum'
          refine ⟨_, sum, hresult, hsum, ?_⟩
          rw [wrap_eq_self_iff.mpr hint]
          ring
    · obtain ⟨a, hsum, hresult⟩ := findMedianSortedArrays_odd h1 h2 hlength (hlength ▸ hlt)
      refine iff_of_true ⟨a, a + a, hresult, hsum, ?_⟩ ⟨hlt, Or.inl (by omega)⟩
      push_cast
      ring
  · refine iff_of_false ?_ fun h => hlt h.1
    intro h
    obtain ⟨v, sum, hv, -⟩ := h
    have hneg : wrap (nums1.length + nums2.length) < 0 := by
      rw [wrap_of_over (by omega) (by omega)]
      omega
    rw [findMedianSortedArrays, if_pos hneg] at hv
    cases hv

/-- The sum of the two elements in the middle is `2^31 - 1`. -/
theorem isMedian_iff_greatest_sum : IsMedian [0, 1073741824] [1073741823, 2147483647] := by
  have hfirst : Ascending [0, 1073741824] := by
    unfold Ascending
    decide
  have hsecond : Ascending [1073741823, 2147483647] := by
    unfold Ascending
    decide
  have hunion : sortedUnion [0, 1073741824] [1073741823, 2147483647] =
      [0, 1073741823, 1073741824, 2147483647] := by
    rw [← map_merged hfirst hsecond, merged]
    simp
  have hmiddle : middleSum [0, 1073741824] [1073741823, 2147483647] = some 2147483647 := by
    rw [middleSum, hunion]
    rfl
  apply (isMedian_iff _ _ hfirst hsecond (by simp) (by simp) (by decide)).mpr
  exact ⟨by decide, .inr ⟨2147483647, hmiddle, by decide, by decide⟩⟩

/-- The sum of twice the greatest int is no int. -/
theorem not_isMedian : ¬ ∀ nums1 nums2 : List JInt, Ascending nums1 → Ascending nums2 →
    nums1.length < 2 ^ 31 → nums2.length < 2 ^ 31 → 1 ≤ nums1.length + nums2.length →
      IsMedian nums1 nums2 := by
  intro h
  have hascending : Ascending [2147483647, 2147483647] := by
    unfold Ascending
    decide
  obtain ⟨v, sum, hv, hsum, htwice⟩ := h [2147483647, 2147483647] [] hascending
    List.Pairwise.nil (by simp) (by simp) (by decide)
  obtain ⟨sum', hsum', hresult⟩ :=
    findMedianSortedArrays_even (k := 1) hascending List.Pairwise.nil rfl (by decide) (by decide)
  have hunion : sortedUnion [2147483647, 2147483647] [] = [2147483647, 2147483647] := by
    rw [← map_merged hascending List.Pairwise.nil, merged, List.merge_right]
    decide
  have hmiddle : middleSum [2147483647, 2147483647] [] = some 4294967294 := by
    rw [middleSum, hunion]
    rfl
  rw [hmiddle] at hsum hsum'
  rw [hresult] at hv
  cases hsum
  cases hsum'
  cases hv
  have hwrap : wrap 4294967294 = -2 := by decide
  rw [hwrap] at htwice
  norm_num at htwice

end BigPlan.Algorithm.Question4
