import Mathlib.Data.List.DropRight

/-!
# Text made of parts

Which characters decimal numbers have. Lists cut at a separator: what the parts contain,
and what stands behind the last one.
-/
namespace BigPlan.Lib.Text

/-! ## Decimals -/

theorem digit_of_mem_natRepr {n : Nat} {c : Char} (h : c ∈ n.repr.toList) : c.isDigit := by
  rw [Nat.toList_repr] at h
  exact Nat.isDigit_of_mem_toDigits (by decide) (by decide) h

theorem mem_intRepr {a : Int} {c : Char} (h : c ∈ a.repr.toList) : c = '-' ∨ c.isDigit := by
  rw [Int.repr_eq_if] at h
  split at h
  · exact .inr (digit_of_mem_natRepr h)
  · rw [String.toList_append, List.mem_append] at h
    rcases h with h | h
    · exact .inl (by simpa using h)
    · exact .inr (digit_of_mem_natRepr h)

/-! ## Separators -/

variable {α : Type*}

theorem notMem_of_mem_splitOn [BEq α] [LawfulBEq α] {x : α} {l part : List α}
    (h : part ∈ l.splitOn x) : x ∉ part := by
  induction l generalizing part with
  | nil =>
    rw [List.splitOn_nil, List.mem_singleton] at h
    rw [h]
    exact List.not_mem_nil
  | cons c l ih =>
    rw [List.splitOn_cons_eq_if_modifyHead] at h
    split at h
    · rcases List.mem_cons.mp h with rfl | h
      · exact List.not_mem_nil
      · exact ih h
    · rename_i hc
      cases hsplit : l.splitOn x with
      | nil => exact absurd hsplit (List.splitOn_ne_nil x l)
      | cons first rest =>
        rw [hsplit] at h ih
        rcases List.mem_cons.mp h with rfl | h
        · intro hmem
          rcases List.mem_cons.mp hmem with rfl | hmem
          · simp at hc
          · exact ih List.mem_cons_self hmem
        · exact ih (List.mem_cons_of_mem _ h)

theorem mem_of_mem_splitOn [BEq α] [LawfulBEq α] {x c : α} {l part : List α}
    (h : part ∈ l.splitOn x) (hc : c ∈ part) : c ∈ l := by
  induction l generalizing part with
  | nil =>
    rw [List.splitOn_nil, List.mem_singleton] at h
    rwa [h] at hc
  | cons d l ih =>
    rw [List.splitOn_cons_eq_if_modifyHead] at h
    split at h
    · rcases List.mem_cons.mp h with rfl | h
      · cases hc
      · exact List.mem_cons_of_mem _ (ih h hc)
    · cases hsplit : l.splitOn x with
      | nil => exact absurd hsplit (List.splitOn_ne_nil x l)
      | cons first rest =>
        rw [hsplit] at h ih
        rcases List.mem_cons.mp h with rfl | h
        · rcases List.mem_cons.mp hc with rfl | hc
          · exact List.mem_cons_self
          · exact List.mem_cons_of_mem _ (ih List.mem_cons_self hc)
        · exact List.mem_cons_of_mem _ (ih (List.mem_cons_of_mem _ h) hc)

theorem sublist_of_mem_splitOn [BEq α] {x : α} {l part : List α} (h : part ∈ l.splitOn x) :
    part.Sublist l := by
  induction l generalizing part with
  | nil =>
    rw [List.splitOn_nil, List.mem_singleton] at h
    rw [h]
  | cons d l ih =>
    rw [List.splitOn_cons_eq_if_modifyHead] at h
    split at h
    · obtain rfl | h := List.mem_cons.mp h
      · exact List.nil_sublist _
      · exact (ih h).cons d
    · cases hsplit : l.splitOn x with
      | nil => exact absurd hsplit (List.splitOn_ne_nil x l)
      | cons first rest =>
        rw [hsplit] at h ih
        obtain rfl | h := List.mem_cons.mp h
        · exact (ih List.mem_cons_self).cons_cons d
        · exact (ih (List.mem_cons_of_mem _ h)).cons d

/-- Dropping at the end loses no element that is not to be dropped. -/
theorem mem_rdropWhile {p : α → Bool} {l : List α} {x : α} (hx : p x = false) :
    x ∈ l.rdropWhile p ↔ x ∈ l := by
  constructor
  · exact fun h => (List.rdropWhile_prefix p l).subset h
  · intro h
    induction l using List.reverseRecOn with
    | nil => cases h
    | append_singleton l y ih =>
      rw [List.rdropWhile_concat]
      split
      · rename_i hy
        rcases List.mem_append.mp h with h | h
        · exact ih h
        · rw [List.mem_singleton.mp h, hy] at hx
          cases hx
      · exact h

/-- Two lists with a separator agree if they agree, and what follows has no separator. -/
theorem append_cons_inj [DecidableEq α] {x : α} {s s' t t' : List α} (ht : x ∉ t) (ht' : x ∉ t')
    (h : s ++ x :: t = s' ++ x :: t') : s = s' ∧ t = t' := by
  have hlast (s t : List α) (ht : x ∉ t) :
      (s ++ x :: t).reverse.takeWhile (· != x) = t.reverse := by
    have hall : ∀ c ∈ t.reverse, (c != x) = true := by
      intro c hc
      rw [bne_iff_ne]
      rintro rfl
      exact ht (List.mem_reverse.mp hc)
    rw [List.reverse_append, List.reverse_cons, List.append_assoc,
      List.takeWhile_append_of_pos hall]
    simp
  have htt : t = t' := by
    rw [← List.reverse_inj, ← hlast s t ht, ← hlast s' t' ht', h]
  subst htt
  exact ⟨List.append_cancel_right h, rfl⟩

end BigPlan.Lib.Text
