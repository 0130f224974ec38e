import Mathlib.Data.List.Sort
import BigPlan.Lib.Java

/-!
# Signatures of request bodies

The signed text of a body is its non-null entries in the order of their keys, between
two copies of the client id. `checkSign` decrypts the signature with the client's
private key and compares. The key store and the cipher are parameters.
-/
namespace BigPlan.Gateway

open Lib.Java

/-- A parsed body; a value is its `toString`, or `none` for `null`. -/
structure JSONObject where
  entries : List (String × Option String)
  nodup : (entries.map Prod.fst).Nodup

def SIGN_FIELD : String := "sign"

/-- What the checker uses: the values in Redis, and `RSAUtils.decrypt` after
`RSAUtils.getPrivateKey`, where `none` is an exception. -/
structure SignServices where
  get : String → Option String
  decrypt : List UInt8 → String → Option (List UInt8)

namespace JSONObject

def getString (body : JSONObject) (key : String) : Option String :=
  (body.entries.find? (·.1 == key)).bind Prod.snd

/-- An entry that takes part in the signature. -/
def signedEntry : String × Option String → Option (String × String)
  | (key, some o) => if key = SIGN_FIELD then none else some (key, o)
  | (_, none) => none

def keyLe (a b : String × String) : Prop := compareToLe a.1 b.1

instance : DecidableRel keyLe := fun a b => inferInstanceAs (Decidable (compareToLe a.1 b.1))

/-- The entries in the order of `TreeMap`. -/
def treeMap (body : JSONObject) : List (String × String) :=
  (body.entries.filterMap signedEntry).insertionSort keyLe

def signText (body : JSONObject) (clientId : Option String) : String :=
  body.treeMap.foldl (fun sb (k, o) => sb ++ k ++ o) (stringOf clientId) ++ stringOf clientId

end JSONObject

/-- `none` is a `NullPointerException`, for a body that parses to `null`. -/
def checkSign (services : SignServices) (body : Option JSONObject) (clientId : Option String) :
    Option Bool :=
  let privateKey := services.get ("CLIENT_PRIVATE_KEY:" ++ stringOf clientId)
  if isBlank privateKey then some false
  else
    match body with
    | none => none
    | some body =>
      let sign := body.getString SIGN_FIELD
      match services.decrypt (getBytes sign) (privateKey.getD "") with
      | none => some false
      | some decryptSign => some (newString decryptSign == body.signText clientId)

/-! ## The text does not depend on the order of the parsed entries -/

/-- The first unit of a character is a surrogate exactly if a second one follows. -/
theorem utf16Units_cons {c d : Char} {us vs : List Nat}
    (h : utf16Units c ++ us = utf16Units d ++ vs) : c = d ∧ us = vs := by
  have hc : c.toNat.isValidChar := c.valid
  have hd : d.toNat.isValidChar := d.valid
  unfold utf16Units at h
  split at h <;> split at h <;>
    simp only [List.cons_append, List.nil_append, List.cons.injEq] at h
  · exact ⟨Char.toNat_inj.mp h.1, h.2⟩
  · rcases hc with hc | hc <;> omega
  · rcases hd with hd | hd <;> omega
  · exact ⟨Char.toNat_inj.mp (by omega), h.2.2⟩

theorem utf16Units_ne_nil (c : Char) : utf16Units c ≠ [] := by
  unfold utf16Units
  split <;> simp

theorem flatMap_utf16Units_inj {cs ds : List Char}
    (h : cs.flatMap utf16Units = ds.flatMap utf16Units) : cs = ds := by
  induction cs generalizing ds with
  | nil =>
    cases ds with
    | nil => rfl
    | cons d ds => simp [utf16Units_ne_nil] at h
  | cons c cs ih =>
    cases ds with
    | nil => simp [utf16Units_ne_nil] at h
    | cons d ds =>
      simp only [List.flatMap_cons] at h
      obtain ⟨rfl, hrest⟩ := utf16Units_cons h
      rw [ih hrest]

theorem compareToLe_antisymm {a b : String} (h : compareToLe a b) (h' : compareToLe b a) :
    a = b :=
  String.toList_inj.mp (flatMap_utf16Units_inj (List.le_antisymm h h'))

namespace JSONObject

instance : Std.Total keyLe := ⟨fun _ _ => List.le_total _ _⟩

instance : IsTrans (String × String) keyLe := ⟨fun _ _ _ => List.le_trans⟩

variable {body body' : JSONObject}

theorem getString_eq_some_iff {key v : String} :
    body.getString key = some v ↔ (key, some v) ∈ body.entries := by
  unfold getString
  constructor
  · intro h
    obtain ⟨e, he, hv⟩ := Option.bind_eq_some_iff.mp h
    have hkey : e.1 = key := by simpa using List.find?_some he
    rw [← hkey, ← hv]
    exact List.mem_of_find?_eq_some he
  · intro h
    have hsome : (body.entries.find? (·.1 == key)).isSome :=
      List.find?_isSome.mpr ⟨_, h, by simp⟩
    obtain ⟨e, he⟩ := Option.isSome_iff_exists.mp hsome
    have hkey : e.1 = key := by simpa using List.find?_some he
    have heq := List.inj_on_of_nodup_map body.nodup (List.mem_of_find?_eq_some he) h hkey
    rw [he, heq, Option.bind_some]

theorem getString_perm (h : body.entries.Perm body'.entries) (key : String) :
    body.getString key = body'.getString key := by
  apply Option.ext
  intro v
  rw [getString_eq_some_iff, getString_eq_some_iff, h.mem_iff]

theorem mem_signed {e : String × String} (h : e ∈ body.entries.filterMap signedEntry) :
    (e.1, some e.2) ∈ body.entries := by
  obtain ⟨⟨key, o⟩, hmem, he⟩ := List.mem_filterMap.mp h
  cases o with
  | none => cases he
  | some o =>
    simp only [signedEntry] at he
    split at he <;> cases he
    exact hmem

theorem treeMap_perm (h : body.entries.Perm body'.entries) : body.treeMap = body'.treeMap := by
  have hperm := h.filterMap signedEntry
  unfold treeMap
  refine List.Perm.eq_of_pairwise ?_ (List.pairwise_insertionSort keyLe _)
    (List.pairwise_insertionSort keyLe _) ?_
  · intro a b ha hb hab hba
    have ha := mem_signed ((List.perm_insertionSort _ _).mem_iff.mp ha)
    have hb := mem_signed ((List.perm_insertionSort _ _).mem_iff.mp hb)
    have heq := List.inj_on_of_nodup_map body.nodup ha (h.mem_iff.mpr hb)
      (compareToLe_antisymm hab hba)
    simp only [Prod.mk.injEq, Option.some.injEq] at heq
    exact Prod.ext heq.1 heq.2
  · exact ((List.perm_insertionSort _ _).trans hperm).trans (List.perm_insertionSort _ _).symm

end JSONObject

/-- A `JSONObject` is a hash map: the order in which it lists its entries does not matter. -/
theorem checkSign_perm (services : SignServices) {body body' : JSONObject}
    (h : body.entries.Perm body'.entries) (clientId : Option String) :
    checkSign services (some body) clientId = checkSign services (some body') clientId := by
  simp only [checkSign, JSONObject.getString_perm h, JSONObject.signText, JSONObject.treeMap_perm h]

end BigPlan.Gateway
