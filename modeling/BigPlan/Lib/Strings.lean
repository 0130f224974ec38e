import Mathlib.Data.List.DropRight

/-!
# Methods of strings

`java.lang.String` and the `StringUtils` of Commons Lang, by the characters. Where a separator
stands in a text is found by going through the text from its start.
-/
namespace BigPlan.Lib.Strings

section Occurrences

variable {α : Type*} [DecidableEq α] (sep : List α)

/-- What comes behind the first occurrence. -/
def after : List α → Option (List α)
  | [] => if sep = [] then some [] else none
  | c :: l => if sep.isPrefixOf (c :: l) then some ((c :: l).drop sep.length) else after l

/-- What comes before the first occurrence. -/
def before : List α → Option (List α)
  | [] => if sep = [] then some [] else none
  | c :: l => if sep.isPrefixOf (c :: l) then some [] else (before l).map (c :: ·)

/-- What comes before the last occurrence. -/
def beforeLast : List α → Option (List α)
  | [] => if sep = [] then some [] else none
  | c :: l =>
    match beforeLast l with
    | some b => some (c :: b)
    | none => if sep.isPrefixOf (c :: l) then some [] else none

variable {sep} {l b t : List α}

theorem after_of_prefix (h : sep <+: l) : after sep l = some (l.drop sep.length) := by
  cases l with
  | nil => rw [List.prefix_nil.mp h]; rfl
  | cons c l => rw [after, if_pos (List.isPrefixOf_iff_prefix.mpr h)]

/-- An occurrence behind elements that the separator does not begin with is the first. -/
theorem after_append {s : α} (hs : sep.head? = some s) (hb : s ∉ b) :
    after sep (b ++ (sep ++ t)) = some t := by
  induction b with
  | nil =>
    rw [List.nil_append, after_of_prefix (List.prefix_append sep t), List.drop_left]
  | cons c b ih =>
    have hne : ¬ sep.isPrefixOf (c :: b ++ (sep ++ t)) = true := by
      intro hprefix
      obtain ⟨rest, hrest⟩ := List.isPrefixOf_iff_prefix.mp hprefix
      have hhead := congrArg List.head? hrest
      rw [List.head?_append, hs, Option.some_or, List.cons_append, List.head?_cons,
        Option.some.injEq] at hhead
      exact hb (hhead ▸ List.mem_cons_self)
    rw [List.cons_append] at hne ⊢
    rw [after, if_neg hne]
    exact ih (List.not_mem_of_not_mem_cons hb)

theorem beforeLast_of_short (h : l.length < sep.length) : beforeLast sep l = none := by
  induction l with
  | nil =>
    rw [beforeLast, if_neg]
    rintro rfl
    exact absurd h (Nat.lt_irrefl 0)
  | cons c l ih =>
    have hne : ¬ sep.isPrefixOf (c :: l) = true := by
      intro hprefix
      have hlength := (List.isPrefixOf_iff_prefix.mp hprefix).length_le
      omega
    rw [beforeLast, ih (by rw [List.length_cons] at h; omega)]
    exact if_neg hne

theorem beforeLast_append (hsep : sep ≠ []) : beforeLast sep (b ++ sep) = some b := by
  induction b with
  | nil =>
    cases sep with
    | nil => exact absurd rfl hsep
    | cons c l =>
      rw [List.nil_append, beforeLast, beforeLast_of_short (by simp)]
      exact if_pos (List.isPrefixOf_iff_prefix.mpr List.prefix_rfl)
  | cons c b ih => rw [List.cons_append, beforeLast, ih]

end Occurrences

/-! ## Strings -/

/-- The characters that `trim` takes off. -/
def isLow (c : Char) : Bool := c.toNat ≤ 0x20

def trim (str : String) : String :=
  String.ofList ((str.toList.dropWhile isLow).rdropWhile isLow)

def startsWith (str start : String) : Bool := start.toList.isPrefixOf str.toList

def endsWith (str last : String) : Bool := last.toList.isSuffixOf str.toList

def contains (str part : String) : Bool := (after part.toList str.toList).isSome

def substringAfter (str separator : String) : String :=
  String.ofList ((after separator.toList str.toList).getD [])

def substringBeforeLast (str separator : String) : String :=
  if str = "" ∨ separator = "" then str
  else ((beforeLast separator.toList str.toList).map String.ofList).getD str

def substringBetween (str opening closing : String) : Option String := do
  let rest ← after opening.toList str.toList
  let between ← before closing.toList rest
  return String.ofList between

/-- The parts between any of the separators that are not empty. -/
def split (str separators : String) : List String :=
  ((str.toList.splitOnP (· ∈ separators.toList)).filter (· ≠ [])).map String.ofList

/-- The texts one after the other. -/
def concat (l : List String) : String := String.ofList (l.flatMap String.toList)

variable {str start : String} {l : List String}

@[simp] theorem toList_concat : (concat l).toList = l.flatMap String.toList :=
  String.toList_ofList

theorem foldl_append (f : String → String) (s : String) :
    l.foldl (fun s line => s ++ f line) s = s ++ concat (l.map f) := by
  induction l generalizing s with
  | nil => rw [← String.toList_inj, String.toList_append]; simp
  | cons line l ih =>
    rw [List.foldl_cons, ih, ← String.toList_inj]
    simp [String.toList_append, List.append_assoc]

/-- A text that starts with a mark once it is trimmed has only low characters before it. -/
theorem toList_of_startsWith_trim (h : startsWith (trim str) start = true) :
    str.toList = str.toList.takeWhile isLow ++
      (start.toList ++ (str.toList.dropWhile isLow).drop start.toList.length) := by
  have hprefix : start.toList <+: str.toList.dropWhile isLow := by
    have htrim := List.isPrefixOf_iff_prefix.mp h
    rw [trim, String.toList_ofList] at htrim
    exact htrim.trans (List.rdropWhile_prefix isLow _)
  obtain ⟨t, ht⟩ := hprefix
  rw [← ht, List.drop_left, ht, List.takeWhile_append_dropWhile]

theorem substringAfter_of_startsWith_trim {c : Char} (hc : start.toList.head? = some c)
    (hlow : isLow c = false) (h : startsWith (trim str) start = true) :
    substringAfter str start =
      String.ofList ((str.toList.dropWhile isLow).drop start.toList.length) := by
  have hnotMem : c ∉ str.toList.takeWhile isLow := by
    intro hmem
    rw [List.mem_takeWhile_imp hmem] at hlow
    cases hlow
  have hafter := after_append (t := (str.toList.dropWhile isLow).drop start.toList.length) hc
    hnotMem
  rw [← toList_of_startsWith_trim h] at hafter
  rw [substringAfter, hafter, Option.getD_some]

/-- The first character of a trimmed text is the first of a mark that the text starts with. -/
theorem head_of_startsWith {c : Char} (hc : start.toList.head? = some c)
    (h : startsWith str start = true) : str.toList.head? = some c := by
  obtain ⟨t, ht⟩ := List.isPrefixOf_iff_prefix.mp h
  rw [← ht, List.head?_append, hc, Option.some_or]

/-- A separator behind each text, instead of between them. -/
theorem concat_append {separator : String} (h : l ≠ []) :
    concat (l.map (· ++ separator)) = separator.intercalate l ++ separator := by
  induction l with
  | nil => exact absurd rfl h
  | cons line l ih =>
    have hcons : concat ((line :: l).map (· ++ separator)) =
        line ++ separator ++ concat (l.map (· ++ separator)) := by
      rw [← String.toList_inj]
      simp [String.toList_append]
    rw [hcons]
    by_cases hnil : l = []
    · subst hnil
      rw [String.intercalate_singleton, ← String.toList_inj]
      simp [String.toList_append]
    · rw [ih hnil, String.intercalate_cons_of_ne_nil hnil, String.append_assoc, String.append_assoc,
        String.append_assoc]

theorem substringBeforeLast_concat {separator : String} (hsep : separator ≠ "") :
    substringBeforeLast (concat (l.map (· ++ separator))) separator = separator.intercalate l := by
  by_cases hnil : l = []
  · subst hnil
    rw [String.intercalate_nil, substringBeforeLast, if_pos (.inl rfl)]
    rfl
  · have hlist : separator.toList ≠ [] := fun h => hsep (String.toList_inj.mp h)
    have hne : separator.intercalate l ++ separator ≠ "" := by
      intro hempty
      have hnil := congrArg String.toList hempty
      rw [String.toList_append] at hnil
      exact hlist (List.append_eq_nil_iff.mp hnil).2
    rw [concat_append hnil, substringBeforeLast, if_neg (fun h => h.elim hne hsep),
      String.toList_append, beforeLast_append hlist, Option.map_some, Option.getD_some,
      String.ofList_toList]

end BigPlan.Lib.Strings
