import Mathlib.Data.List.Basic

/-!
# Reading at a point

A reader looks at the content from a point on, and returns the point behind what it has read
and a new state. It reads a piece if it does so wherever the piece stands in the content.
Readers one after the other read the pieces one after the other, and a loop reads a list of
pieces.
-/
namespace BigPlan.Lib.Cursor

variable {α β σ τ : Type}

/-- From the one index up to the other, with `none` for indices that are out of range. -/
def substring (content : List α) (first last : ℕ) : Option (List α) :=
  if first ≤ last ∧ last ≤ content.length then some ((content.take last).drop first) else none

theorem length_substring {content piece : List α} {first last : ℕ}
    (h : substring content first last = some piece) : piece.length = last - first := by
  unfold substring at h
  split at h
  · rename_i hrange
    cases h
    rw [List.length_drop, List.length_take_of_le hrange.2]
  · cases h

/-- The piece stands in the content at the point. -/
def At (content : List α) (point : ℕ) (piece : List α) : Prop :=
  ∃ before after, before.length = point ∧ content = before ++ (piece ++ after)

section At

variable {content piece piece' : List α} {point : ℕ}

theorem at_whole (content : List α) : At content 0 content := ⟨[], [], rfl, by simp⟩

/-- Two pieces stand there if the one stands behind the other. -/
theorem at_append : At content point (piece ++ piece') ↔
    At content point piece ∧ At content (point + piece.length) piece' := by
  constructor
  · intro h
    obtain ⟨before, after, rfl, rfl⟩ := h
    exact ⟨⟨before, piece' ++ after, rfl, by rw [List.append_assoc]⟩,
      ⟨before ++ piece, after, List.length_append, by simp only [List.append_assoc]⟩⟩
  · intro h
    obtain ⟨⟨before, after, rfl, rfl⟩, ⟨before', after', hlength, heq⟩⟩ := h
    rw [← List.append_assoc] at heq
    rw [← List.length_append] at hlength
    obtain ⟨rfl, rfl⟩ := List.append_inj heq.symm hlength
    exact ⟨before, after', rfl, by simp only [List.append_assoc]⟩

theorem At.substring_eq (h : At content point piece) :
    substring content point (point + piece.length) = some piece := by
  obtain ⟨before, after, rfl, rfl⟩ := h
  have hrange : before.length + piece.length ≤ (before ++ (piece ++ after)).length := by
    simp only [List.length_append]
    omega
  have htake : (before ++ (piece ++ after)).take (before.length + piece.length) =
      before ++ piece := by
    rw [← List.append_assoc, ← List.length_append, List.take_left]
  rw [substring, if_pos ⟨Nat.le_add_right _ _, hrange⟩, htake, List.drop_left]

theorem At.length_le (h : At content point piece) : point + piece.length ≤ content.length := by
  obtain ⟨before, after, rfl, rfl⟩ := h
  simp only [List.length_append]
  omega

end At

/-! ## Cells of one width -/

theorem length_flatMap {enc : β → List α} {width : ℕ} (hwidth : ∀ b, (enc b).length = width)
    (l : List β) : (l.flatMap enc).length = l.length * width := by
  induction l with
  | nil => rw [List.flatMap_nil, List.length_nil, List.length_nil, Nat.zero_mul]
  | cons b l ih =>
    rw [List.flatMap_cons, List.length_append, ih, hwidth, List.length_cons, Nat.add_one_mul,
      Nat.add_comm]

/-- In a list of cells of one width each cell stands where its number says. -/
theorem at_flatMap {enc : β → List α} {width : ℕ} (hwidth : ∀ b, (enc b).length = width)
    (l : List β) {i : ℕ} {b : β} (hi : l[i]? = some b) : At (l.flatMap enc) (i * width) (enc b) := by
  obtain ⟨hlt, rfl⟩ := List.getElem?_eq_some_iff.mp hi
  refine ⟨(l.take i).flatMap enc, (l.drop (i + 1)).flatMap enc, ?_, ?_⟩
  · rw [length_flatMap hwidth, List.length_take_of_le (Nat.le_of_lt hlt)]
  · rw [← List.flatMap_cons, ← List.flatMap_append, ← List.drop_eq_getElem_cons hlt,
      List.take_append_drop]

theorem substring_flatMap {enc : β → List α} {width : ℕ} (hwidth : ∀ b, (enc b).length = width)
    (l : List β) {i : ℕ} {b : β} (hi : l[i]? = some b) :
    substring (l.flatMap enc) (i * width) (i * width + width) = some (enc b) := by
  have h := (at_flatMap hwidth l hi).substring_eq
  rwa [hwidth] at h

/-- A loop over the numbers of the cells reads each of them. -/
theorem mapM_cells {enc : β → List α} {width : ℕ} (hwidth : ∀ b, (enc b).length = width)
    {read : List α → Option τ} {f : β → τ} (hread : ∀ b, read (enc b) = some (f b)) (l : List β) :
    ((List.range l.length).mapM fun i => do
      let cell ← substring (l.flatMap enc) (i * width) (i * width + width)
      read cell) = some (l.map f) := by
  have hfirst : ∀ n ≤ l.length, ((List.range n).mapM fun i => do
      let cell ← substring (l.flatMap enc) (i * width) (i * width + width)
      read cell) = some ((l.take n).map f) := by
    intro n hn
    induction n with
    | zero => rfl
    | succ n ih =>
      have hcell : l[n]? = some l[n] := List.getElem?_eq_getElem hn
      rw [List.range_succ, List.mapM_append, ih (Nat.le_of_succ_le hn), List.take_add_one, hcell,
        List.map_append]
      simp [substring_flatMap hwidth l hcell, hread]
  rw [hfirst l.length (Nat.le_refl _), List.take_length]

/-! ## Readers -/

/-- Wherever the piece stands, the reader ends behind it with this state, or fails. -/
def Reads (content : List α) (read : ℕ → σ → Option (ℕ × σ)) (piece : List α) (s : σ)
    (r : Option σ) : Prop :=
  ∀ point, At content point piece → read point s = r.map fun s' => (point + piece.length, s')

/-- Reads so many times. -/
def times (read : ℕ → σ → Option (ℕ × σ)) : ℕ → ℕ → σ → Option (ℕ × σ)
  | 0, point, s => some (point, s)
  | n + 1, point, s => do
    let (point, s) ← read point s
    times read n point s

section Reads

variable {content piece piece' : List α} {read : ℕ → σ → Option (ℕ × σ)} {s : σ}

/-- One step for each element reads the elements of a list. -/
theorem Reads.times {enc : β → List α} {step : σ → β → Option σ} {l : List β}
    (h : ∀ b ∈ l, ∀ s, Reads content read (enc b) s (step s b)) (s : σ) :
    Reads content (times read l.length) (l.flatMap enc) s (l.foldlM step s) := by
  induction l generalizing s with
  | nil =>
    intro point _
    rfl
  | cons b l ih =>
    intro point hat
    obtain ⟨hb, hl⟩ := at_append.mp hat
    rw [List.length_cons, Cursor.times, h b List.mem_cons_self s point hb, List.foldlM_cons]
    cases hstep : step s b with
    | none => rfl
    | some s' =>
      have hrest := ih (fun c hc => h c (List.mem_cons_of_mem _ hc)) s' _ hl
      rw [List.flatMap_cons, List.length_append, ← Nat.add_assoc]
      exact hrest

/-- A loop that collects what it reads. -/
theorem Reads.collect {enc : β → List α} {f : β → τ}
    {read : ℕ → List τ → Option (ℕ × List τ)} {l : List β}
    (h : ∀ b ∈ l, ∀ acc, Reads content read (enc b) acc (some (acc ++ [f b]))) (acc : List τ) :
    Reads content (Cursor.times read l.length) (l.flatMap enc) acc (some (acc ++ l.map f)) := by
  have hfold : ∀ acc, l.foldlM (fun acc b => some (acc ++ [f b])) acc = some (acc ++ l.map f) := by
    clear h
    induction l with
    | nil =>
      intro acc
      rw [List.map_nil, List.append_nil]
      rfl
    | cons b l ih =>
      intro acc
      have hrest := ih (acc ++ [f b])
      rw [List.append_assoc, List.singleton_append] at hrest
      exact hrest
  rw [← hfold]
  exact Reads.times h acc

/-- What a step keeps, the loop keeps. -/
theorem times_induction {P : ℕ → σ → Prop} {n : ℕ} {point point' : ℕ} {s s' : σ} {k : ℕ}
    (hstep : ∀ k point s point' s', P k s → read point s = some (point', s') → P (k + 1) s')
    (h : Cursor.times read n point s = some (point', s')) (hs : P k s) : P (k + n) s' := by
  induction n generalizing point s k with
  | zero =>
    cases h
    exact hs
  | succ n ih =>
    rw [Cursor.times, Option.bind_eq_bind, Option.bind_eq_some_iff] at h
    obtain ⟨⟨point₁, s₁⟩, hread, hrest⟩ := h
    have hdone := ih hrest (hstep k point s point₁ s₁ hs hread)
    rwa [Nat.add_assoc, Nat.add_comm 1 n] at hdone

end Reads

end BigPlan.Lib.Cursor
