import BigPlan.Gateway.SignChecker

/-!
# What a signature leaves open

The signed text joins keys and values without a mark between them, so that no text says where a
key ends. Every body shares its text with a body that has other fields, and the signature of the
one is accepted for the other. With the lengths of the keys and values the text would say it all.
-/
namespace BigPlan.Gateway

open Lib.Java

namespace JSONObject

/-- The fields that take part in the signature, as printed. -/
def fields (body : JSONObject) : List (String × String) := body.entries.filterMap signedEntry

def SameFields (body body' : JSONObject) : Prop := ∀ e, e ∈ body.fields ↔ e ∈ body'.fields

/-- The keys and values one after the other. -/
def joined (fields : List (String × String)) : String :=
  fields.foldl (fun sb (k, o) => sb ++ k ++ o) ""

/-- The lengths of the keys and values. -/
def lengths (fields : List (String × String)) : List (ℕ × ℕ) :=
  fields.map fun e => (e.1.length, e.2.length)

theorem foldl_joined (text : String) (fields : List (String × String)) :
    fields.foldl (fun sb (k, o) => sb ++ k ++ o) text = text ++ joined fields := by
  induction fields generalizing text with
  | nil => simp [joined]
  | cons e fields ih =>
    rw [joined, List.foldl_cons, List.foldl_cons, ih, ih (("" : String) ++ e.1 ++ e.2)]
    simp [String.append_assoc]

theorem joined_cons (e : String × String) (fields : List (String × String)) :
    joined (e :: fields) = e.1 ++ e.2 ++ joined fields := by
  rw [joined, List.foldl_cons, foldl_joined]
  simp

theorem signText_eq (body : JSONObject) (clientId : Option String) :
    body.signText clientId = stringOf clientId ++ joined body.treeMap ++ stringOf clientId := by
  rw [signText, foldl_joined]

theorem mem_treeMap {body : JSONObject} {e : String × String} :
    e ∈ body.treeMap ↔ e ∈ body.fields :=
  (List.perm_insertionSort keyLe _).mem_iff

/-! ## The text with the lengths -/

theorem joined_inj {fields fields' : List (String × String)} (hjoined : joined fields = joined fields')
    (hlengths : lengths fields = lengths fields') : fields = fields' := by
  induction fields generalizing fields' with
  | nil =>
    cases fields' with
    | nil => rfl
    | cons e fields' => cases hlengths
  | cons e fields ih =>
    cases fields' with
    | nil => cases hlengths
    | cons e' fields' =>
      simp only [lengths, List.map_cons, List.cons.injEq, Prod.mk.injEq] at hlengths
      obtain ⟨⟨hkey, hvalue⟩, hrest⟩ := hlengths
      rw [joined_cons, joined_cons] at hjoined
      have hlist := congrArg String.toList hjoined
      simp only [String.toList_append, List.append_assoc] at hlist
      obtain ⟨hk, htail⟩ := List.append_inj hlist (by rwa [String.length_toList, String.length_toList])
      obtain ⟨hv, htail⟩ := List.append_inj htail (by rwa [String.length_toList, String.length_toList])
      rw [ih (String.toList_inj.mp htail) hrest, Prod.ext (String.toList_inj.mp hk)
        (String.toList_inj.mp hv)]

/-- Bodies with the same text have the same fields if their keys and values, in order, have the
same lengths. -/
theorem sameFields_of_lengths {body body' : JSONObject} {clientId : Option String}
    (htext : body.signText clientId = body'.signText clientId)
    (hlengths : lengths body.treeMap = lengths body'.treeMap) : SameFields body body' := by
  rw [signText_eq, signText_eq] at htext
  have hlist := congrArg String.toList htext
  simp only [String.toList_append, List.append_assoc] at hlist
  have hjoined := List.append_cancel_right (List.append_cancel_left hlist)
  have hsame := joined_inj (String.toList_inj.mp hjoined) hlengths
  intro e
  rw [← mem_treeMap, ← mem_treeMap, hsame]

/-! ## Another body with the same text -/

/-- The fields with a signature. -/
def signed (sign : Option String) (fields : List (String × String))
    (hnodup : (SIGN_FIELD :: fields.map Prod.fst).Nodup) : JSONObject where
  entries := (SIGN_FIELD, sign) :: fields.map fun e => (e.1, some e.2)
  nodup := by
    rw [List.map_cons, List.map_map]
    exact hnodup

theorem getString_signed (sign : Option String) (fields : List (String × String))
    (hnodup : (SIGN_FIELD :: fields.map Prod.fst).Nodup) :
    (signed sign fields hnodup).getString SIGN_FIELD = sign := by
  simp [getString, signed]

theorem fields_signed (sign : Option String) {fields : List (String × String)}
    (hnodup : (SIGN_FIELD :: fields.map Prod.fst).Nodup) :
    (signed sign fields hnodup).fields = fields := by
  have hsign : signedEntry (SIGN_FIELD, sign) = none := by
    cases sign with
    | none => rfl
    | some sign => simp [signedEntry]
  rw [JSONObject.fields, signed, List.filterMap_cons_none hsign, List.filterMap_map]
  have hall : ∀ e ∈ fields, (signedEntry ∘ fun e : String × String => (e.1, some e.2)) e = some e := by
    intro e he
    refine if_neg fun hkey => ?_
    exact (List.nodup_cons.mp hnodup).1 (List.mem_map.mpr ⟨e, he, hkey⟩)
  rw [List.filterMap_congr hall, List.filterMap_some]

/-- A list of one field or none that makes up the text. -/
structure Cuts (text : String) (fields : List (String × String)) : Prop where
  joined : joined fields = text
  short : fields.length ≤ 1
  unsigned : SIGN_FIELD ∉ fields.map Prod.fst

theorem Cuts.nodup {text : String} {fields : List (String × String)} (h : Cuts text fields) :
    (SIGN_FIELD :: fields.map Prod.fst).Nodup := by
  rw [List.nodup_cons]
  refine ⟨h.unsigned, List.Nodup.map_on (fun e he e' he' _ => ?_) ?_⟩
  · obtain ⟨hj, hshort, hu⟩ := h
    match fields, hshort with
    | [], _ => cases he
    | [d], _ => rw [List.mem_singleton.mp he, List.mem_singleton.mp he']
  · match fields, h.short with
    | [], _ => exact List.nodup_nil
    | [d], _ => exact List.nodup_singleton d

/-- Every text has two cuts: after the key and before it, or with a field and without. -/
theorem exists_two_cuts (text : String) :
    ∃ fields fields', Cuts text fields ∧ Cuts text fields' ∧ ¬ ∀ e, e ∈ fields ↔ e ∈ fields' := by
  have hsign : ("" : String) ≠ SIGN_FIELD := by decide
  by_cases htext : text = SIGN_FIELD
  · subst htext
    refine ⟨[("", SIGN_FIELD)], [("s", "ign")], ⟨by decide, by simp, by decide⟩,
      ⟨by decide, by simp, by decide⟩, fun hsame => ?_⟩
    have hmem := (hsame ("", SIGN_FIELD)).mp (by simp)
    exact absurd hmem (by decide)
  · by_cases hempty : text = ""
    · subst hempty
      refine ⟨[], [("", "")], ⟨rfl, by simp, by simp⟩, ⟨by decide, by simp, by decide⟩,
        fun hsame => ?_⟩
      exact List.not_mem_nil ((hsame ("", "")).mpr (by simp))
    · refine ⟨[(text, "")], [("", text)], ⟨by simp [JSONObject.joined], by simp, ?_⟩,
        ⟨by simp [JSONObject.joined], by simp, by simp [hsign.symm]⟩, fun hsame => ?_⟩
      · simpa using Ne.symm htext
      · have hmem := (hsame (text, "")).mp (by simp)
        simp only [List.mem_singleton, Prod.mk.injEq] at hmem
        exact hempty hmem.1

theorem treeMap_of_short {body : JSONObject} (h : body.fields.length ≤ 1) :
    body.treeMap = body.fields := by
  unfold treeMap
  change body.fields.insertionSort keyLe = body.fields
  match body.fields, h with
  | [], _ => rfl
  | [e], _ => rfl

/-- For no client and no body does the text say which fields there are, or whose signature it
is. -/
theorem signText_ambiguous (clientId : Option String) (body : JSONObject) :
    ∃ body' : JSONObject, body'.signText clientId = body.signText clientId ∧
      ¬ SameFields body body' ∧
      ∀ services : SignServices, checkSign services (some body) clientId = some true →
        checkSign services (some body') clientId = some true := by
  obtain ⟨fields, fields', hcut, hcut', hdiffer⟩ := exists_two_cuts (joined body.treeMap)
  have hother : ∃ l, ∃ h : Cuts (joined body.treeMap) l, ¬ ∀ e, e ∈ body.fields ↔ e ∈ l := by
    by_cases hfirst : ∀ e, e ∈ body.fields ↔ e ∈ fields
    · refine ⟨fields', hcut', fun hsecond => hdiffer fun e => ?_⟩
      rw [← hfirst, hsecond]
    · exact ⟨fields, hcut, hfirst⟩
  obtain ⟨l, hl, hne⟩ := hother
  have hfields := fields_signed (body.getString SIGN_FIELD) hl.nodup
  have htext : (signed (body.getString SIGN_FIELD) l hl.nodup).signText clientId =
      body.signText clientId := by
    rw [signText_eq, signText_eq, treeMap_of_short (by rw [hfields]; exact hl.short), hfields,
      hl.joined]
  refine ⟨signed (body.getString SIGN_FIELD) l hl.nodup, htext, ?_, fun services haccepted => ?_⟩
  · rw [SameFields, hfields]
    exact hne
  · simp only [checkSign, getString_signed, htext] at haccepted ⊢
    exact haccepted

/-- The end of the key and the beginning of the value. -/
theorem not_sameFields : ¬ ∀ (clientId : Option String) (body body' : JSONObject),
    body.signText clientId = body'.signText clientId → SameFields body body' := by
  intro h
  have hsame := h (some "c") { entries := [("to", some "1"), ("amount", some "10")], nodup := by decide }
    { entries := [("to", some "1"), ("amount1", some "0")], nodup := by decide } (by decide +kernel)
  exact absurd ((hsame ("amount", "10")).mp (by decide +kernel)) (by decide +kernel)

end JSONObject

end BigPlan.Gateway
