import Mathlib.Data.List.TakeWhile

/-!
# Scans

A loop that moves an index through a list, as long as it takes the elements behind the index.
What it comes to is told by a recursion on the rest of the list.
-/
namespace BigPlan.Lib.Scan

variable {σ α : Type*} (next : σ → α → Option σ)

/-- The state behind the elements that are taken, and the elements that are left. -/
def scan : σ → List α → σ × List α
  | s, [] => (s, [])
  | s, a :: l =>
    match next s a with
    | some s' => scan s' l
    | none => (s, a :: l)

/-- The elements that are taken. -/
def taken : σ → List α → List α
  | _, [] => []
  | s, a :: l =>
    match next s a with
    | some s' => a :: taken s' l
    | none => []

/-- The loop from behind an index: it ends at the last element that is taken, or behind them
all. -/
def scanFrom (l : List α) (i : ℕ) (s : σ) : ℕ × σ :=
  if h : i + 1 < l.length then
    match next s l[i + 1] with
    | some s' => scanFrom l (i + 1) s'
    | none => (i, s)
  else (i + 1, s)
termination_by l.length - i

variable {next} {l : List α} {s : σ} {i : ℕ}

theorem le_scanFrom : i ≤ (scanFrom next l i s).1 := by
  induction i, s using scanFrom.induct next l with
  | case1 i s h s' hnext ih =>
    rw [scanFrom, dif_pos h, hnext]
    exact (Nat.le_succ i).trans ih
  | case2 i s h hnext =>
    rw [scanFrom, dif_pos h, hnext]
  | case3 i s h =>
    rw [scanFrom, dif_neg h]
    exact Nat.le_succ i

/-- The index loop does what the scan of the rest does. -/
theorem scanFrom_eq (next : σ → α → Option σ) (l : List α) (i : ℕ) (s : σ) :
    (scanFrom next l i s).2 = (scan next s (l.drop (i + 1))).1 ∧
      l.drop ((scanFrom next l i s).1 + 1) = (scan next s (l.drop (i + 1))).2 := by
  induction i, s using scanFrom.induct next l with
  | case1 i s h s' hnext ih =>
    rw [scanFrom, dif_pos h, hnext, List.drop_eq_getElem_cons h]
    simp only [scan, hnext]
    exact ih
  | case2 i s h hnext =>
    rw [scanFrom, dif_pos h, hnext, List.drop_eq_getElem_cons h]
    simp only [scan, hnext, and_self]
  | case3 i s h =>
    rw [scanFrom, dif_neg h, List.drop_of_length_le (Nat.not_lt.mp h),
      List.drop_of_length_le ((Nat.not_lt.mp h).trans (Nat.le_succ _))]
    exact ⟨rfl, rfl⟩

theorem taken_append : taken next s l ++ (scan next s l).2 = l := by
  induction l generalizing s with
  | nil => rfl
  | cons a l ih =>
    simp only [taken, scan]
    split
    · exact congrArg (a :: ·) ih
    · rfl

/-- A loop that takes what satisfies a predicate. -/
theorem scan_while (p : α → Bool) (f : σ → α → σ) :
    scan (fun s a => if p a then some (f s a) else none) s l =
      ((l.takeWhile p).foldl f s, l.dropWhile p) := by
  induction l generalizing s with
  | nil => rfl
  | cons a l ih =>
    by_cases ha : p a = true
    · simp only [scan, ha, if_true, List.takeWhile_cons_of_pos, List.dropWhile_cons_of_pos,
        List.foldl_cons]
      exact ih
    · simp only [scan, ha, if_false, List.takeWhile_cons_of_neg, List.dropWhile_cons_of_neg,
        List.foldl_nil, not_false_eq_true, Bool.false_eq_true]

/-! ## Numbered elements -/

/-- The elements that fit the numbers from the given one on. -/
def numbered (fits : ℕ → α → Bool) : ℕ → List α → List α :=
  taken fun n a => if fits n a then some (n + 1) else none

variable {fits : ℕ → α → Bool} {n : ℕ}

theorem numbered_cons (a : α) :
    numbered fits n (a :: l) = if fits n a then a :: numbered fits (n + 1) l else [] := by
  unfold numbered
  rw [taken]
  by_cases h : fits n a = true
  · simp only [h, if_true]
  · simp only [h, Bool.false_eq_true, if_false]

theorem numbered_isPrefix : numbered fits n l <+: l :=
  ⟨_, taken_append⟩

theorem fits_of_numbered {k : ℕ} {a : α} (h : (numbered fits n l)[k]? = some a) :
    fits (n + k) a = true := by
  induction l generalizing n k with
  | nil => cases h
  | cons b l ih =>
    rw [numbered_cons] at h
    split at h
    · rename_i hfits
      cases k with
      | zero =>
        obtain rfl := Option.some.inj h
        exact hfits
      | succ k =>
        rw [List.getElem?_cons_succ] at h
        have hrest := ih h
        rwa [Nat.add_assoc, Nat.add_comm 1 k] at hrest
    · cases h

/-- A loop that counts the elements it takes. -/
theorem scan_numbered (f : σ → ℕ → α → σ) :
    scan (fun (t : ℕ × σ) a => if fits t.1 a then some (t.1 + 1, f t.2 t.1 a) else none) (n, s) l =
      ((numbered fits n l).foldl (fun t a => (t.1 + 1, f t.2 t.1 a)) (n, s),
        l.drop (numbered fits n l).length) := by
  induction l generalizing n s with
  | nil => rfl
  | cons a l ih =>
    rw [scan, numbered_cons]
    by_cases h : fits n a = true
    · simp only [h, if_true, ih, List.foldl_cons, List.length_cons, List.drop_succ_cons]
    · simp only [h, Bool.false_eq_true, if_false, List.foldl_nil, List.length_nil, List.drop_zero]

end BigPlan.Lib.Scan
