import Mathlib
import BigPlan.Lib.Text
import BigPlan.Auth.TokenLogic

/-!
# Scopes and their keys as text

Scopes are joined by commas where they are stored and split at commas where they are
read. A key in the scope cache joins a client id and a user id by a colon, and only
the client id can contain one.
-/
namespace BigPlan.Auth

open Lib.Java Lib.Text

theorem colon_notMem_longToString (n : JLong) : ':' ∉ (longToString n).toList := by
  intro h
  rw [longToString, Int.toString_eq_repr] at h
  rcases mem_intRepr h with h | h <;> exact absurd h (by decide)

theorem longToString_inj {m n : JLong} (h : longToString m = longToString n) : m = n := by
  rw [longToString, longToString, Int.toString_eq_repr, Int.toString_eq_repr] at h
  exact BitVec.eq_of_toInt_eq (Int.repr_inj.mp h)

/-- The pair of a client id and a user id can be read off its key. -/
theorem scopeKey_inj {clientId clientId' : String} {uid uid' : JLong}
    (h : Redis.scopeKey (some clientId) uid = Redis.scopeKey (some clientId') uid') :
    clientId = clientId' ∧ uid = uid' := by
  have hchars : clientId.toList ++ ':' :: (longToString uid).toList =
      clientId'.toList ++ ':' :: (longToString uid').toList := by
    have := congrArg String.toList h
    simpa [Redis.scopeKey, stringOf] using this
  obtain ⟨hclient, huid⟩ := append_cons_inj (colon_notMem_longToString uid)
    (colon_notMem_longToString uid') hchars
  exact ⟨String.toList_inj.mp hclient, longToString_inj (String.toList_inj.mp huid)⟩

/-- Besides empty strings, the parts of a split are those between the commas. -/
theorem mem_splitComma {s x : String} (hx : x ≠ "") :
    x ∈ splitComma s ↔ x.toList ∈ s.toList.splitOn ',' := by
  have hmap : x ∈ (s.toList.splitOn ',').map String.ofList ↔ x.toList ∈ s.toList.splitOn ',' := by
    rw [List.mem_map]
    constructor
    · intro hexists
      obtain ⟨part, hpart, rfl⟩ := hexists
      rwa [String.toList_ofList]
    · exact fun h => ⟨x.toList, h, String.ofList_toList⟩
  unfold splitComma
  split
  · rename_i part heq
    rw [← heq]
    exact hmap
  · rw [mem_rdropWhile (by simpa using hx)]
    exact hmap

theorem comma_notMem_of_mem_splitComma {s x : String} (h : x ∈ splitComma s) :
    ',' ∉ x.toList := by
  by_cases hx : x = ""
  · rw [hx]
    decide
  · exact notMem_of_mem_splitOn ((mem_splitComma hx).mp h)

/-- A list without commas can be read off the text that joins it with commas. -/
theorem mem_splitComma_intercalate {l : List String} {x : String} (hx : x ≠ "")
    (hl : ∀ s ∈ l, ',' ∉ s.toList) : x ∈ splitComma (String.intercalate "," l) ↔ x ∈ l := by
  rw [mem_splitComma hx, String.toList_intercalate]
  by_cases hnil : l = []
  · subst hnil
    simpa using hx
  · show x.toList ∈ ([','].intercalate (l.map String.toList)).splitOn ',' ↔ x ∈ l
    rw [List.splitOn_intercalate]
    · rw [List.mem_map]
      constructor
      · intro hexists
        obtain ⟨s, hs, heq⟩ := hexists
        rwa [← String.toList_inj.mp heq]
      · exact fun h => ⟨x, h, rfl⟩
    · intro part hpart
      obtain ⟨s, hs, rfl⟩ := List.mem_map.mp hpart
      exact hl s hs
    · simpa using hnil

/-- The scopes that a token check reads from the text of a role. -/
def splitScopes (scopes : Option String) : List String :=
  if isBlank scopes then []
  else (splitComma (scopes.getD "")).filter fun x => !isBlank (some x)

theorem isBlank_of_mem_splitComma {s x : String} (hs : isBlank (some s) = true)
    (h : x ∈ splitComma s) : isBlank (some x) = true := by
  by_cases hx : x = ""
  · rw [hx]
    rfl
  · rw [isBlank, List.all_eq_true] at hs ⊢
    intro c hc
    exact hs c (mem_of_mem_splitOn ((mem_splitComma hx).mp h) hc)

theorem mem_splitScopes {s x : String} :
    x ∈ splitScopes (some s) ↔ x ∈ splitComma s ∧ isBlank (some x) = false := by
  unfold splitScopes
  split
  · rename_i hs
    simp only [List.not_mem_nil, false_iff, not_and]
    intro hx hblank
    rw [isBlank_of_mem_splitComma hs hx] at hblank
    cases hblank
  · simp

/-- Scopes that are not blank can be read off the text that joins them with commas just if
none has a comma itself. -/
theorem mem_splitScopes_intercalate {l : List String} (hl : ∀ x ∈ l, isBlank (some x) = false) :
    (∀ x, x ∈ splitScopes (some (String.intercalate "," l)) ↔ x ∈ l) ↔
      ∀ x ∈ l, ',' ∉ x.toList := by
  constructor
  · intro h x hx
    exact comma_notMem_of_mem_splitComma (mem_splitScopes.mp ((h x).mpr hx)).1
  · intro h x
    rw [mem_splitScopes]
    by_cases hx : x = ""
    · subst hx
      constructor
      · intro hboth
        obtain ⟨-, hblank⟩ := hboth
        cases hblank
      · intro hmem
        cases hl "" hmem
    · rw [mem_splitComma_intercalate hx h]
      exact ⟨And.left, fun hmem => ⟨hmem, hl x hmem⟩⟩

end BigPlan.Auth
