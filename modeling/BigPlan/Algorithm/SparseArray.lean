import BigPlan.Lib.Arrays
import BigPlan.Lib.Java
import Mathlib.Data.List.Induction

/-!
# Sparse arrays

An array of rows becomes a list of its elements that are not 0, with their positions, behind a
header, and back. What comes back has rows of the length of the first one.
-/
namespace BigPlan.Algorithm.SparseArray

open Lib Lib.Arrays Lib.Fallible

/-! ## The program -/

/-- `new int[rows][cols]`. -/
def newArray (rows cols : ℤ) : Except Fault (List (List ℤ)) :=
  if rows < 0 ∨ cols < 0 then .error .negativeArraySize
  else .ok (List.replicate rows.toNat (List.replicate cols.toNat 0))

/-- `arr[i][j] = value`. -/
def put (arr : List (List ℤ)) (i j value : ℤ) : Except Fault (List (List ℤ)) := do
  let row ← read arr i
  let row ← write row j value
  write arr i row

/-- `sparse[i][0] = a; sparse[i][1] = b; sparse[i][2] = c`. -/
def putLine (sparse : List (List ℤ)) (i a b c : ℤ) : Except Fault (List (List ℤ)) := do
  let sparse ← put sparse i 0 a
  let sparse ← put sparse i 1 b
  put sparse i 2 c

/-- The number of elements that are not 0. -/
def total (source : List (List ℤ)) : ℤ :=
  source.foldl (fun total ints =>
    ints.foldl (fun total anInt => if anInt ≠ 0 then Java.wrap (total + 1) else total) total) 0

/-- The element goes to the next line, if it is not 0. -/
def addCell (i : ℕ) (s : List (List ℤ) × ℤ) (value : ℤ) (j : ℕ) :
    Except Fault (List (List ℤ) × ℤ) :=
  if value ≠ 0 then do
    let sparse ← putLine s.1 s.2 i j value
    return (sparse, Java.wrap (s.2 + 1))
  else return s

def addRow (s : List (List ℤ) × ℤ) (row : List ℤ) (i : ℕ) : Except Fault (List (List ℤ) × ℤ) :=
  (List.range row.length).foldlM (fun s (j : ℕ) => do
    let value ← read row j
    addCell i s value j) s

def toSparse (source : List (List ℤ)) : Except Fault (List (List ℤ)) := do
  let totalRow : ℤ := source.length
  let first ← read source 0
  let totalCol : ℤ := first.length
  let total := total source
  let sparse ← newArray (Java.wrap (1 + total)) 3
  let sparse ← putLine sparse 0 totalRow totalCol total
  let (sparse, _) ← (List.range source.length).foldlM (fun s (i : ℕ) => do
    let row ← read source i
    addRow s row i) (sparse, 1)
  return sparse

/-- `result[row[0]][row[1]] = row[2]`. -/
def restore (result : List (List ℤ)) (row : List ℤ) : Except Fault (List (List ℤ)) := do
  let i ← read row 0
  let j ← read row 1
  let value ← read row 2
  put result i j value

def toNormal (source : List (List ℤ)) : Except Fault (List (List ℤ)) := do
  let header ← read source 0
  let totalRow ← read header 0
  let totalCol ← read header 1
  let total ← read header 2
  let result ← newArray totalRow totalCol
  (List.range total.toNat).foldlM (fun result (i : ℕ) => do
    let row ← read source (i + 1)
    restore result row) result

/-! ## Cells -/

/-- A position, and what stands there. -/
structure Cell where
  row : ℕ
  col : ℕ
  value : ℤ
  deriving DecidableEq

namespace Cell

def line (c : Cell) : List ℤ := [c.row, c.col, c.value]

/-- The cell comes first, row by row. -/
def Before (c d : Cell) : Prop := c.row < d.row ∨ c.row = d.row ∧ c.col < d.col

instance : Std.Asymm Before :=
  ⟨fun c d hcd hdc => by
    simp only [Before] at hcd hdc
    omega⟩

/-- The cell is one of an array of this size. -/
def Within (rows cols : ℕ) (c : Cell) : Prop := c.row < rows ∧ c.col < cols

instance (rows cols : ℕ) (c : Cell) : Decidable (c.Within rows cols) :=
  inferInstanceAs (Decidable (_ ∧ _))

end Cell

/-- What is not 0 in a row. -/
def cellsOfRow (row : List ℤ) (i : ℕ) : List Cell :=
  row.zipIdx.filterMap fun a => if a.1 ≠ 0 then some ⟨i, a.2, a.1⟩ else none

/-- What is not 0, row by row. -/
def cells (source : List (List ℤ)) : List Cell :=
  source.zipIdx.flatMap fun a => cellsOfRow a.1 a.2

/-- What stands at the position after the cells have been filled in, one after the other. -/
def valueAt (filled : List Cell) (i j : ℕ) : ℤ :=
  filled.foldl (fun value c => if c.row = i ∧ c.col = j then c.value else value) 0

/-- The array of this size with the cells. -/
def array (rows cols : ℕ) (filled : List Cell) : List (List ℤ) :=
  (List.range rows).map fun i => (List.range cols).map fun j => valueAt filled i j

/-- The header tells the size and the number of the cells, which follow in their order. -/
structure WellFormed (sparse : List (List ℤ)) (rows cols : ℕ) (filled : List Cell) : Prop where
  lines : sparse = [(rows : ℤ), cols, filled.length] :: filled.map Cell.line
  ordered : filled.Pairwise Cell.Before
  nonzero : ∀ c ∈ filled, c.value ≠ 0
  /-- The number of lines is an int. -/
  length_lt : sparse.length < 2 ^ 31

section Cells

variable {source : List (List ℤ)} {row : List ℤ} {filled : List Cell} {c : Cell} {i j : ℕ} {v : ℤ}

theorem mem_cellsOfRow : c ∈ cellsOfRow row i ↔ c.row = i ∧ row[c.col]? = some c.value ∧ c.value ≠ 0 := by
  obtain ⟨r, k, v⟩ := c
  simp only [cellsOfRow, List.mem_filterMap, Prod.exists, List.mem_zipIdx_iff_getElem?]
  constructor
  · rintro ⟨a, b, ha, heq⟩
    split at heq
    · cases heq
      exact ⟨rfl, ha, ‹_›⟩
    · cases heq
  · rintro ⟨rfl, hk, hv⟩
    exact ⟨v, k, hk, if_pos hv⟩

theorem mem_cells : c ∈ cells source ↔
    ∃ row, source[c.row]? = some row ∧ row[c.col]? = some c.value ∧ c.value ≠ 0 := by
  simp only [cells, List.mem_flatMap, Prod.exists, List.mem_zipIdx_iff_getElem?, mem_cellsOfRow]
  constructor
  · rintro ⟨row, i, hrow, rfl, hc⟩
    exact ⟨row, hrow, hc⟩
  · rintro ⟨row, hrow, hc⟩
    exact ⟨row, c.row, hrow, rfl, hc⟩

theorem pairwise_zipIdx {α : Type} (l : List α) : l.zipIdx.Pairwise (·.2 < ·.2) := by
  have hpositions : (l.zipIdx.map Prod.snd).Pairwise (· < ·) := by
    rw [List.zipIdx_map_snd]
    exact List.pairwise_lt_range'
  exact List.pairwise_map.mp hpositions

theorem pairwise_cellsOfRow (row : List ℤ) (i : ℕ) : (cellsOfRow row i).Pairwise Cell.Before := by
  refine List.pairwise_filterMap.mpr ((pairwise_zipIdx row).imp fun hlt c hc d hd => ?_)
  split at hc
  · cases hc
    split at hd
    · cases hd
      exact Or.inr ⟨rfl, hlt⟩
    · cases hd
  · cases hc

theorem pairwise_cells (source : List (List ℤ)) : (cells source).Pairwise Cell.Before := by
  refine List.pairwise_flatMap.mpr ⟨fun a _ => pairwise_cellsOfRow a.1 a.2,
    (pairwise_zipIdx source).imp fun hlt c hc d hd => ?_⟩
  rw [← (mem_cellsOfRow.mp hc).1, ← (mem_cellsOfRow.mp hd).1] at hlt
  exact Or.inl hlt

theorem valueAt_concat : valueAt (filled ++ [c]) i j =
    if c.row = i ∧ c.col = j then c.value else valueAt filled i j :=
  List.foldl_append

/-- Nothing else is filled in at the position. -/
theorem valueAt_of_mem (h : filled.Pairwise Cell.Before) (hc : c ∈ filled) :
    valueAt filled c.row c.col = c.value := by
  induction filled using List.reverseRecOn with
  | nil => cases hc
  | append_singleton filled d ih =>
    rw [valueAt_concat]
    obtain ⟨hfilled, -, hbefore⟩ := List.pairwise_append.mp h
    obtain hc | hd := List.mem_append.mp hc
    · have hne : ¬ (d.row = c.row ∧ d.col = c.col) := by
        have hcd := hbefore c hc d List.mem_cons_self
        simp only [Cell.Before] at hcd
        omega
      rw [if_neg hne]
      exact ih hfilled hc
    · obtain rfl := List.mem_singleton.mp hd
      exact if_pos ⟨rfl, rfl⟩

theorem valueAt_of_notMem (h : ∀ v, ⟨i, j, v⟩ ∉ filled) : valueAt filled i j = 0 := by
  induction filled using List.reverseRecOn with
  | nil => rfl
  | append_singleton filled d ih =>
    rw [valueAt_concat]
    have hne : ¬ (d.row = i ∧ d.col = j) := by
      rintro ⟨rfl, rfl⟩
      exact h d.value (List.mem_append_right _ List.mem_cons_self)
    rw [if_neg hne]
    exact ih fun v hv => h v (List.mem_append_left _ hv)

theorem valueAt_cells {row : List ℤ} (hrow : source[i]? = some row) (hv : row[j]? = some v) :
    valueAt (cells source) i j = v := by
  by_cases h0 : v = 0
  · refine h0 ▸ valueAt_of_notMem fun w hw => ?_
    obtain ⟨row', hrow', hw, hne⟩ := mem_cells.mp hw
    obtain rfl := Option.some.inj (hrow.symm.trans hrow')
    obtain rfl := Option.some.inj (hv.symm.trans hw)
    exact hne h0
  · exact valueAt_of_mem (c := ⟨i, j, v⟩) (pairwise_cells source) (mem_cells.mpr ⟨row, hrow, hv, h0⟩)

theorem getElem?_array (rows cols : ℕ) (filled : List Cell) (i : ℕ) : (array rows cols filled)[i]? =
    if i < rows then some ((List.range cols).map fun j => valueAt filled i j) else none := by
  by_cases hi : i < rows
  · simp [array, hi]
  · simp [array, hi]

theorem length_of_mem_array {rows cols : ℕ} (h : row ∈ array rows cols filled) : row.length = cols := by
  obtain ⟨i, -, rfl⟩ := List.mem_map.mp h
  simp

/-- An array whose rows have the same length is made up of its cells. -/
theorem array_cells {cols : ℕ} (h : ∀ row ∈ source, row.length = cols) :
    array source.length cols (cells source) = source := by
  refine List.ext_getElem? fun i => ?_
  rw [getElem?_array]
  by_cases hi : i < source.length
  · rw [if_pos hi, List.getElem?_eq_getElem hi, Option.some_inj]
    have hlength := h source[i] (List.getElem_mem hi)
    refine List.ext_getElem (by simp [hlength]) fun j hj hj' => ?_
    rw [List.getElem_map, List.getElem_range]
    exact valueAt_cells (List.getElem?_eq_getElem hi) (List.getElem?_eq_getElem hj')
  · rw [if_neg hi, List.getElem?_eq_none (not_lt.mp hi)]

/-- The cells of an array that has been made up of them. -/
theorem cells_array {rows cols : ℕ} (hordered : filled.Pairwise Cell.Before)
    (hnonzero : ∀ c ∈ filled, c.value ≠ 0) (hwithin : ∀ c ∈ filled, c.Within rows cols) :
    cells (array rows cols filled) = filled := by
  have hmem (c : Cell) : c ∈ cells (array rows cols filled) ↔ c ∈ filled := by
    rw [mem_cells]
    constructor
    · rintro ⟨row, hrow, hc, hne⟩
      rw [getElem?_array] at hrow
      split at hrow
      · cases hrow
        have hvalue : valueAt filled c.row c.col = c.value := by
          rw [List.getElem?_map, Option.map_eq_some_iff] at hc
          obtain ⟨j, hj, hc⟩ := hc
          obtain ⟨hcol, hj⟩ := List.getElem?_eq_some_iff.mp hj
          rw [List.getElem_range] at hj
          rwa [hj]
        by_contra hnot
        refine hne (hvalue ▸ valueAt_of_notMem fun v hv => ?_)
        obtain rfl : c.value = v := hvalue.symm.trans (valueAt_of_mem hordered hv)
        exact hnot hv
      · cases hrow
    · intro hc
      obtain ⟨hrow, hcol⟩ := hwithin c hc
      refine ⟨_, (getElem?_array rows cols filled c.row).trans (if_pos hrow), ?_, hnonzero c hc⟩
      simp [hcol, valueAt_of_mem hordered hc]
  exact (pairwise_cells _).eq_of_mem_iff hordered hmem

end Cells

/-! ## To the sparse array -/

section ToSparse

variable {arr pre rest source : List (List ℤ)} {row : List ℤ} {i j : ℕ}

theorem put_of_getElem? (hrow : arr[i]? = some row) (hj : j < row.length) (v : ℤ) :
    put arr i j v = .ok (arr.set i (row.set j v)) := by
  have hi := (List.getElem?_eq_some_iff.mp hrow).1
  rw [put, read_of_getElem? hrow]
  change write row j v >>= (write arr i ·) = _
  rw [write_of_lt hj]
  exact write_of_lt hi _

/-- A line of an array is written from its start. -/
theorem putLine_ok (a b c : ℤ) : putLine (pre ++ [0, 0, 0] :: rest) pre.length a b c =
    .ok (pre ++ [a, b, c] :: rest) := by
  have hset (row row' : List ℤ) : (pre ++ row :: rest).set pre.length row' = pre ++ row' :: rest := by
    rw [List.set_append_right _ _ (le_refl _), Nat.sub_self]
    rfl
  have hputs (row : List ℤ) (j : ℕ) (hj : j < row.length) (v : ℤ) :
      put (pre ++ row :: rest) pre.length j v = .ok (pre ++ row.set j v :: rest) := by
    have hrow : (pre ++ row :: rest)[pre.length]? = some row := by simp
    rw [put_of_getElem? hrow hj, hset]
  have ha : put (pre ++ [0, 0, 0] :: rest) pre.length 0 a = .ok (pre ++ [a, 0, 0] :: rest) :=
    hputs [0, 0, 0] 0 (by simp) a
  have hb : put (pre ++ [a, 0, 0] :: rest) pre.length 1 b = .ok (pre ++ [a, b, 0] :: rest) :=
    hputs [a, 0, 0] 1 (by simp) b
  have hc : put (pre ++ [a, b, 0] :: rest) pre.length 2 c = .ok (pre ++ [a, b, c] :: rest) :=
    hputs [a, b, 0] 2 (by simp) c
  rw [putLine, ha]
  change put (pre ++ [a, 0, 0] :: rest) pre.length 1 b >>= _ = _
  rw [hb]
  exact hc

/-- The next line is written. -/
def fill (s : List (List ℤ) × ℤ) (c : Cell) : Except Fault (List (List ℤ) × ℤ) := do
  let sparse ← putLine s.1 s.2 c.row c.col c.value
  return (sparse, Java.wrap (s.2 + 1))

theorem fill_ok (hlength : pre.length + 1 < 2 ^ 31) (c : Cell) :
    fill (pre ++ [0, 0, 0] :: rest, pre.length) c =
      .ok (pre ++ c.line :: rest, (pre ++ [c.line]).length) := by
  have hwrap : Java.wrap ((pre.length : ℤ) + 1) = (pre ++ [c.line]).length := by
    rw [Java.wrap_of_int (by omega) (by omega), List.length_append]
    rfl
  rw [fill, putLine_ok]
  change Except.ok (_, Java.wrap ((pre.length : ℤ) + 1)) = _
  rw [hwrap]
  rfl

/-- Line by line, the cells take the place of the lines that are left. -/
theorem foldlM_fill (l : List Cell) (hlength : pre.length + l.length < 2 ^ 31) :
    ∃ index, l.foldlM fill (pre ++ List.replicate l.length [0, 0, 0], (pre.length : ℤ)) =
      .ok (pre ++ l.map Cell.line, index) := by
  induction l generalizing pre with
  | nil => exact ⟨pre.length, rfl⟩
  | cons c l ih =>
    rw [List.length_cons] at hlength
    have hlength' : (pre ++ [c.line]).length + l.length < 2 ^ 31 := by
      rw [List.length_append, List.length_singleton]
      omega
    obtain ⟨index, hindex⟩ := ih hlength'
    rw [List.append_assoc, List.append_assoc] at hindex
    refine ⟨index, ?_⟩
    rw [List.foldlM_cons, List.length_cons, List.replicate_succ, fill_ok (by omega)]
    exact hindex

theorem addRow_eq (s : List (List ℤ) × ℤ) (row : List ℤ) (i : ℕ) :
    addRow s row i = (cellsOfRow row i).foldlM fill s := by
  rw [addRow, foldlM_range_get (fun j v hv => read_of_getElem? hv) (fun s v j => addCell i s v j) s,
    cellsOfRow, List.foldlM_filterMap]
  refine foldlM_congr (fun s a ha => ?_) s
  by_cases hv : a.1 ≠ 0
  · simp only [addCell, if_pos hv]
    rfl
  · simp only [addCell, if_neg hv]

theorem addRows_eq (s : List (List ℤ) × ℤ) (source : List (List ℤ)) :
    (List.range source.length).foldlM (fun s (i : ℕ) => do
      let row ← read source i
      addRow s row i) s = (cells source).foldlM fill s := by
  rw [foldlM_range_get (fun i row hrow => read_of_getElem? hrow) addRow s, cells, foldlM_flatMap]
  exact foldlM_congr (fun s a ha => addRow_eq s a.1 a.2) s

/-! ### The header -/

theorem total_row (row : List ℤ) (i : ℕ) (n : ℤ) :
    row.foldl (fun n v => if v ≠ 0 then Java.wrap (n + 1) else n) n =
      (cellsOfRow row i).foldl (fun n _ => Java.wrap (n + 1)) n := by
  have hrow : row = row.zipIdx.map Prod.fst := (List.zipIdx_map_fst 0 row).symm
  conv_lhs => rw [hrow, List.foldl_map]
  rw [cellsOfRow, List.foldl_filterMap]
  refine List.foldl_ext _ _ n fun n a ha => ?_
  by_cases hv : a.1 ≠ 0
  · simp only [if_pos hv]
  · simp only [if_neg hv]

theorem total_eq (h : (cells source).length < 2 ^ 31) : total source = (cells source).length := by
  have hcells : total source = (cells source).foldl (fun n _ => Java.wrap (n + 1)) 0 := by
    have hsource : source = source.zipIdx.map Prod.fst := (List.zipIdx_map_fst 0 source).symm
    rw [total]
    conv_lhs => rw [hsource, List.foldl_map]
    rw [cells, List.foldl_flatMap]
    exact List.foldl_ext _ _ 0 fun n a _ => total_row a.1 a.2 n
  have hcount := Java.foldl_wrap_succ (cells source) 0 (by rwa [Nat.zero_add])
  rw [Nat.zero_add] at hcount
  exact hcells.trans hcount

/-- The sparse array of an array with a first row. -/
theorem toSparse_eq {first : List ℤ} {rows : List (List ℤ)}
    (h : (cells (first :: rows)).length + 1 < 2 ^ 31) : toSparse (first :: rows) =
      .ok ([((first :: rows).length : ℤ), first.length, (cells (first :: rows)).length] ::
        (cells (first :: rows)).map Cell.line) := by
  generalize hcells : cells (first :: rows) = l at h ⊢
  have htotal : total (first :: rows) = l.length := by
    rw [total_eq (by rw [hcells]; omega), hcells]
  have hsize : newArray (Java.wrap (1 + (l.length : ℤ))) 3 =
      .ok (List.replicate (l.length + 1) [0, 0, 0]) := by
    rw [Java.wrap_of_int (by omega) (by omega), newArray, if_neg (by omega)]
    congr 2
    omega
  have hheader : putLine (List.replicate (l.length + 1) [0, 0, 0]) 0 (first :: rows).length
      first.length l.length = .ok ([((first :: rows).length : ℤ), first.length, l.length] ::
        List.replicate l.length [0, 0, 0]) := @putLine_ok [] _ _ _ _
  obtain ⟨index, hfill⟩ : ∃ index, l.foldlM fill
      ([((first :: rows).length : ℤ), first.length, l.length] :: List.replicate l.length [0, 0, 0], 1) =
        .ok ([((first :: rows).length : ℤ), first.length, l.length] :: l.map Cell.line, index) :=
    @foldlM_fill [_] l (by rwa [Nat.add_comm] at h)
  have hfirst : read (first :: rows) 0 = .ok first := read_of_getElem? (i := 0) rfl
  rw [toSparse, hfirst]
  change (newArray (Java.wrap (1 + total (first :: rows))) 3 >>= fun sparse =>
    putLine sparse 0 (first :: rows).length first.length (total (first :: rows)) >>= fun sparse =>
      (List.range (first :: rows).length).foldlM (fun s (i : ℕ) =>
        read (first :: rows) i >>= fun row => addRow s row i) (sparse, 1) >>= fun s =>
          pure s.1) = _
  rw [htotal, hsize]
  change (putLine _ _ _ _ _ >>= _) = _
  rw [hheader]
  change ((List.range (first :: rows).length).foldlM (fun s (i : ℕ) =>
    read (first :: rows) i >>= fun row => addRow s row i) _ >>= _) = _
  rw [addRows_eq, hcells, hfill]
  rfl

end ToSparse

/-! ## And back -/

section ToNormal

variable {rows cols : ℕ} {filled : List Cell}

theorem restore_line (result : List (List ℤ)) (c : Cell) :
    restore result c.line = put result c.row c.col c.value := rfl

theorem set_array {c : Cell} (h : c.Within rows cols) : (array rows cols filled).set c.row
    (((List.range cols).map fun j => valueAt filled c.row j).set c.col c.value) =
      array rows cols (filled ++ [c]) := by
  refine List.ext_getElem? fun i => ?_
  rw [List.getElem?_set, getElem?_array, getElem?_array]
  by_cases hi : c.row = i
  · subst hi
    rw [if_pos rfl, if_pos h.1, if_pos (by simpa [array] using h.1), Option.some_inj]
    refine List.ext_getElem (by simp) fun j hj hj' => ?_
    rw [List.getElem_set, List.getElem_map, List.getElem_map, List.getElem_range, valueAt_concat]
    simp
  · simp only [valueAt_concat, hi, false_and, if_false]

theorem put_array (c : Cell) : put (array rows cols filled) c.row c.col c.value =
    if c.Within rows cols then .ok (array rows cols (filled ++ [c])) else .error .indexOutOfBounds := by
  by_cases hrow : c.row < rows
  · have hget := getElem?_array rows cols filled c.row
    rw [if_pos hrow] at hget
    by_cases hcol : c.col < cols
    · rw [if_pos ⟨hrow, hcol⟩, put_of_getElem? hget (by simpa using hcol), set_array ⟨hrow, hcol⟩]
    · rw [if_neg fun h => hcol h.2, put, read_of_getElem? hget]
      change write _ _ _ >>= _ = _
      rw [write_of_le (by simpa using hcol)]
      rfl
  · rw [if_neg fun h => hrow h.1, put, read_of_le (by simpa [array] using hrow)]
    rfl

/-- The cells are filled in, as long as they are within the array. -/
theorem foldlM_restore (l : List Cell) :
    (l.map Cell.line).foldlM restore (array rows cols filled) =
      if ∀ c ∈ l, c.Within rows cols then .ok (array rows cols (filled ++ l))
      else .error .indexOutOfBounds := by
  induction l generalizing filled with
  | nil => simp [pure, Except.pure]
  | cons c l ih =>
    rw [List.map_cons, List.foldlM_cons, restore_line, put_array]
    by_cases hc : c.Within rows cols
    · rw [if_pos hc]
      change (l.map Cell.line).foldlM restore _ = _
      simp [ih, hc]
    · rw [if_neg hc, if_neg fun h => hc (h c List.mem_cons_self)]
      rfl

theorem array_nil : array rows cols [] = List.replicate rows (List.replicate cols 0) := by
  have hvalue (i j : ℕ) : valueAt [] i j = 0 := rfl
  simp only [array, hvalue, List.map_const', List.length_range]

theorem toNormal_eq (l : List Cell) :
    toNormal ([(rows : ℤ), cols, l.length] :: l.map Cell.line) =
      if ∀ c ∈ l, c.Within rows cols then .ok (array rows cols l) else .error .indexOutOfBounds := by
  have hsize : newArray rows cols = .ok (array rows cols []) := by
    rw [newArray, if_neg (by omega), array_nil]
    rfl
  have hget (i : ℕ) (row : List ℤ) (hrow : (l.map Cell.line)[i]? = some row) :
      read ([(rows : ℤ), cols, l.length] :: l.map Cell.line) (i + 1) = .ok row :=
    read_of_getElem? (i := i + 1) hrow
  have hlines := foldlM_range_get hget (fun result row _ => restore result row)
    (array rows cols [])
  rw [List.length_map, foldlM_zipIdx restore, foldlM_restore, List.nil_append] at hlines
  rw [← hlines]
  change (newArray rows cols >>= fun result => (List.range l.length).foldlM (fun result (i : ℕ) =>
    read ([(rows : ℤ), cols, l.length] :: l.map Cell.line) (i + 1) >>= restore result) result) = _
  rw [hsize]
  rfl

end ToNormal

/-! ## There and back -/

variable {source : List (List ℤ)} {first : List ℤ} {rows : List (List ℤ)}

theorem wellFormed_cells (h : (cells source).length + 1 < 2 ^ 31) (cols : ℕ) :
    WellFormed ([(source.length : ℤ), cols, (cells source).length] :: (cells source).map Cell.line)
      source.length cols (cells source) where
  lines := rfl
  ordered := pairwise_cells source
  nonzero c hc := by
    obtain ⟨row, -, -, hne⟩ := mem_cells.mp hc
    exact hne
  length_lt := by rwa [List.length_cons, List.length_map]

/-- Beyond the length of the first row there are only zeros. -/
theorem forall_within_iff {cols : ℕ} : (∀ c ∈ cells source, c.Within source.length cols) ↔
    ∀ row ∈ source, ∀ v ∈ row.drop cols, v = 0 := by
  constructor
  · intro h row hrow v hv
    by_contra hne
    obtain ⟨i, hi⟩ := List.mem_iff_getElem?.mp hrow
    obtain ⟨j, hj⟩ := List.mem_iff_getElem?.mp hv
    rw [List.getElem?_drop] at hj
    have hcol := (h ⟨i, cols + j, v⟩ (mem_cells.mpr ⟨row, hi, hj, hne⟩)).2
    simp only at hcol
    omega
  · intro h c hc
    obtain ⟨row, hrow, hv, hne⟩ := mem_cells.mp hc
    refine ⟨(List.getElem?_eq_some_iff.mp hrow).1, ?_⟩
    by_contra hcol
    refine hne (h row (List.mem_of_getElem? hrow) c.value (List.mem_of_getElem? (i := c.col - cols) ?_))
    rw [List.getElem?_drop, Nat.add_sub_cancel' (not_lt.mp hcol)]
    exact hv

/-- The sparse array is well formed. It becomes the array again if and only if the rows have the
same length, and cannot be read back if a row has something beyond the length of the first one. -/
theorem toNormal_toSparse (h : (cells (first :: rows)).length + 1 < 2 ^ 31) :
    ∃ sparse, toSparse (first :: rows) = .ok sparse ∧
      WellFormed sparse (first :: rows).length first.length (cells (first :: rows)) ∧
      (toNormal sparse = .ok (first :: rows) ↔ ∀ row ∈ rows, row.length = first.length) ∧
      (toNormal sparse = .error .indexOutOfBounds ↔
        ∃ row ∈ rows, ∃ v ∈ row.drop first.length, v ≠ 0) := by
  have hzeros : (∀ c ∈ cells (first :: rows), c.Within (first :: rows).length first.length) ↔
      ∀ row ∈ rows, ∀ v ∈ row.drop first.length, v = 0 := by
    rw [forall_within_iff, List.forall_mem_cons, List.drop_length]
    exact and_iff_right fun v hv => absurd hv List.not_mem_nil
  refine ⟨_, toSparse_eq h, wellFormed_cells h _, ?_⟩
  rw [toNormal_eq]
  by_cases hwithin : ∀ row ∈ rows, ∀ v ∈ row.drop first.length, v = 0
  · rw [if_pos (hzeros.mpr hwithin)]
    refine ⟨⟨fun hok row hrow => ?_, fun hlength => ?_⟩, iff_of_false nofun ?_⟩
    · rw [Except.ok.injEq] at hok
      have hmem := List.mem_cons_of_mem first hrow
      rw [← hok] at hmem
      exact length_of_mem_array hmem
    · rw [array_cells (List.forall_mem_cons.mpr ⟨rfl, hlength⟩)]
    · rintro ⟨row, hrow, v, hv, hne⟩
      exact hne (hwithin row hrow v hv)
  · rw [if_neg (hzeros.not.mpr hwithin)]
    refine ⟨iff_of_false nofun fun hlength => hwithin fun row hrow v hv => ?_, iff_of_true rfl ?_⟩
    · rw [List.drop_eq_nil_of_le (hlength row hrow).le] at hv
      cases hv
    · simpa using hwithin

theorem toNormal_toSparse_jagged : ∃ sparse, toSparse [[0, 5], [7]] = .ok sparse ∧
    WellFormed sparse 2 2 (cells [[0, 5], [7]]) ∧
    (toNormal sparse = .ok [[0, 5], [7]] ↔ ∀ row ∈ [[(7 : ℤ)]], row.length = 2) ∧
    (toNormal sparse = .error .indexOutOfBounds ↔ ∃ row ∈ [[(7 : ℤ)]], ∃ v ∈ row.drop 2, v ≠ 0) :=
  toNormal_toSparse (show (cells [[0, 5], [7]]).length + 1 < 2 ^ 31 by decide)

/-- A well-formed sparse array becomes an array that becomes it again. -/
theorem toSparse_toNormal {sparse : List (List ℤ)} {rows cols : ℕ} {filled : List Cell}
    (h : WellFormed sparse rows cols filled) (hrows : 0 < rows)
    (hwithin : ∀ c ∈ filled, c.Within rows cols) :
    ∃ normal, toNormal sparse = .ok normal ∧ toSparse normal = .ok sparse := by
  refine ⟨array rows cols filled, ?_, ?_⟩
  · rw [h.lines, toNormal_eq, if_pos hwithin]
  · have hcells := cells_array h.ordered h.nonzero hwithin
    have hlength : (array rows cols filled).length = rows := by simp [array]
    cases harray : array rows cols filled with
    | nil =>
      rw [harray] at hlength
      exact absurd hlength hrows.ne
    | cons first rest =>
      have hfirst : first.length = cols := length_of_mem_array (harray ▸ List.mem_cons_self)
      rw [harray] at hcells hlength
      have hshort := h.length_lt
      rw [h.lines, List.length_cons, List.length_map] at hshort
      rw [toSparse_eq (by rwa [hcells]), hcells, hlength, hfirst, h.lines]

theorem toSparse_toNormal_two : ∃ normal, toNormal [[2, 3, 2], [0, 2, -4], [1, 0, 9]] = .ok normal ∧
    toSparse normal = .ok [[2, 3, 2], [0, 2, -4], [1, 0, 9]] :=
  have h : WellFormed [[2, 3, 2], [0, 2, -4], [1, 0, 9]] 2 3 [⟨0, 2, -4⟩, ⟨1, 0, 9⟩] :=
    ⟨rfl, by simp [Cell.Before], by decide, by decide⟩
  toSparse_toNormal h (by decide) (by decide)

end BigPlan.Algorithm.SparseArray
