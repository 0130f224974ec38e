import Mathlib.Algebra.BigOperators.Group.Multiset.Basic
import Mathlib.Algebra.Order.Group.Multiset
import Mathlib.Data.List.AList
import BigPlan.Lib.SortedSet

/-!
# Tallies

A sorted set tallies a multiset if its members are the elements and its scores the
multiplicities. The multiset is often the sum of what the values of a map contribute:
`total` follows the map through its insertions and removals.
-/
namespace BigPlan.Lib

section Total

variable {κ ν α : Type*} [DecidableEq κ] (f : ν → Multiset α)

/-- What the values of a map contribute, all together. -/
def total (m : AList fun _ : κ => ν) : Multiset α := (m.entries.map fun e => f e.2).sum

variable {m : AList fun _ : κ => ν} {k : κ} {v : ν}

theorem total_insert : total f (m.insert k v) = f v + total f (m.erase k) := by
  rw [total, AList.entries_insert, List.map_cons, List.sum_cons]
  rfl

theorem total_insert_of_notMem (h : k ∉ m) : total f (m.insert k v) = f v + total f m := by
  rw [total, AList.entries_insert_of_notMem h, List.map_cons, List.sum_cons]
  rfl

theorem total_eq_add_erase (h : m.lookup k = some v) :
    total f m = f v + total f (m.erase k) := by
  have hmem : ⟨k, v⟩ ∈ m.entries := AList.mem_lookup_iff.mp h
  have hperm : m.entries.Perm (⟨k, v⟩ :: (m.erase k).entries) := by
    obtain ⟨w, before, after, -, hentries, herase⟩ :=
      List.exists_of_kerase (List.mem_keys_of_mem hmem)
    have hw : w = v := by
      have hlookup := (AList.mem_lookup_iff (s := m) (a := k) (b := w)).mpr (by simp [hentries])
      exact Option.some.inj (hlookup.symm.trans h)
    subst hw
    rw [hentries, show (m.erase k).entries = before ++ after from herase]
    exact List.perm_middle
  rw [total, (hperm.map _).sum_eq, List.map_cons, List.sum_cons]
  rfl

omit [DecidableEq κ] in
theorem total_coe (g : ν → List α) :
    total (fun v => (g v : Multiset α)) m = (m.entries.flatMap fun e => g e.2 : List α) := by
  unfold total
  induction m.entries with
  | nil => rfl
  | cons e l ih => rw [List.map_cons, List.sum_cons, ih, Multiset.coe_add, List.flatMap_cons]

theorem mem_total {a : α} : a ∈ total f m ↔ ∃ k v, m.lookup k = some v ∧ a ∈ f v := by
  have hsum : ∀ l : List (Sigma fun _ : κ => ν),
      a ∈ (l.map fun e => f e.2).sum ↔ ∃ k v, ⟨k, v⟩ ∈ l ∧ a ∈ f v := by
    intro l
    induction l with
    | nil => simp
    | cons e l ih =>
      rw [List.map_cons, List.sum_cons, Multiset.mem_add, ih]
      constructor
      · rintro (h | ⟨k, v, hmem, h⟩)
        · exact ⟨e.1, e.2, List.mem_cons_self, h⟩
        · exact ⟨k, v, List.mem_cons_of_mem _ hmem, h⟩
      · rintro ⟨k, v, hmem, h⟩
        rcases List.mem_cons.mp hmem with rfl | hmem
        · exact .inl h
        · exact .inr ⟨k, v, hmem, h⟩
  rw [total, hsum]
  simp only [AList.mem_lookup_iff.symm, Option.mem_def]

end Total

namespace SortedSet

variable {α : Type*} [LinearOrder α] {s : SortedSet α} {m : Multiset α} {a : α} {x : Int}

/-- The score of an element that occurs so many times. -/
def tally (n : Nat) : Option Int := if n = 0 then none else some n

def Tallies (s : SortedSet α) (m : Multiset α) : Prop := ∀ a, s.zscore a = tally (m.count a)

theorem tallies_empty : (empty : SortedSet α).Tallies 0 := by
  intro a
  simp [tally]

theorem Tallies.mem_members (h : s.Tallies m) : a ∈ s.members ↔ a ∈ m := by
  rw [SortedSet.mem_members, h a, tally, ← Multiset.count_ne_zero]
  by_cases hc : m.count a = 0 <;> simp [hc]

theorem Tallies.score_eq (h : s.Tallies m) (hx : s.zscore a = some x) : x = m.count a := by
  rw [h a, tally] at hx
  split at hx
  · cases hx
  · exact (Option.some.inj hx).symm

theorem Tallies.zincrby (h : s.Tallies m) (x : Int) :
    s.zincrby a x = (s.zadd a (m.count a + x), m.count a + x) := by
  have hscore : (s.zscore a).getD 0 = m.count a := by
    rw [h a, tally]
    split <;> simp [*]
  simp [SortedSet.zincrby, hscore]

theorem tally_injective : Function.Injective tally := by
  intro m n h
  unfold tally at h
  split_ifs at h with hm hn hn
  · rw [hm, hn]
  · exact_mod_cast Option.some.inj h

theorem Tallies.inj {m' : Multiset α} (h : s.Tallies m) (h' : s.Tallies m') : m = m' := by
  refine Multiset.ext.mpr fun a => ?_
  exact tally_injective ((h a).symm.trans (h' a))

theorem Tallies.eq {t : SortedSet α} (h : s.Tallies m) (h' : t.Tallies m) : s = t :=
  ext_zscore fun a => (h a).trans (h' a).symm

/-- A set agrees with a multiset on all other elements. -/
theorem tallies_zadd (hne : ∀ b, b ≠ a → s.zscore b = tally (m.count b))
    (hx : x = m.count a) (hpos : 0 < m.count a) : (s.zadd a x).Tallies m := by
  intro b
  rw [zscore_zadd]
  by_cases hb : b = a
  · subst hb
    simp [tally, hx, hpos.ne']
  · rw [if_neg hb, hne b hb]

theorem tallies_zrem (hne : ∀ b, b ≠ a → s.zscore b = tally (m.count b)) (ha : a ∉ m) :
    (s.zrem a).Tallies m := by
  intro b
  rw [zscore_zrem]
  by_cases hb : b = a
  · subst hb
    simp [tally, Multiset.count_eq_zero.mpr ha]
  · rw [if_neg hb, hne b hb]

end SortedSet

end BigPlan.Lib
