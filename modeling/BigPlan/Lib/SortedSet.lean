import Mathlib.Data.List.Nodup
import Mathlib.Data.List.Sort

/-!
# Sorted sets

Members with integer scores, in the order of the scores and then of the members. The
operations are those of a Redis sorted set, whose scores are exact up to 2^53.
-/
namespace BigPlan.Lib

/-- The order of the entries: by score, and by member where scores are equal. -/
def EntryLE {α : Type*} [LinearOrder α] (p q : α × Int) : Prop :=
  p.2 < q.2 ∨ (p.2 = q.2 ∧ p.1 ≤ q.1)

instance {α : Type*} [LinearOrder α] (p q : α × Int) : Decidable (EntryLE p q) := by
  unfold EntryLE
  infer_instance

instance {α : Type*} [LinearOrder α] : Std.Total (EntryLE (α := α)) where
  total p q := by
    unfold EntryLE
    rcases lt_trichotomy p.2 q.2 with h | h | h
    · exact .inl (.inl h)
    · rcases le_total p.1 q.1 with hle | hle
      · exact .inl (.inr ⟨h, hle⟩)
      · exact .inr (.inr ⟨h.symm, hle⟩)
    · exact .inr (.inl h)

instance {α : Type*} [LinearOrder α] : IsTrans (α × Int) EntryLE where
  trans p q r hpq hqr := by
    unfold EntryLE at *
    rcases hpq with h | ⟨h, hle⟩ <;> rcases hqr with h' | ⟨h', hle'⟩
    · exact .inl (h.trans h')
    · exact .inl (h' ▸ h)
    · exact .inl (h ▸ h')
    · exact .inr ⟨h.trans h', hle.trans hle'⟩

structure SortedSet (α : Type*) [LinearOrder α] where
  entries : List (α × Int)
  sorted : entries.Pairwise EntryLE
  nodup : (entries.map Prod.fst).Nodup

/-- The elements from one index to another, both counted from the end if negative. -/
def slice {α : Type*} (l : List α) (start stop : Int) : List α :=
  let len : Int := l.length
  let first := if start < 0 then max 0 (len + start) else start
  let last := if stop < 0 then len + stop else stop
  (l.take (last + 1).toNat).drop first.toNat

section Slice

variable {α : Type*} {l : List α} {start n : Nat}

theorem mem_of_mem_slice {x : α} {first last : Int} (h : x ∈ slice l first last) : x ∈ l :=
  List.mem_of_mem_take (List.mem_of_mem_drop h)

/-- A slice to the last index of a page, or to the end if the page is not full. -/
theorem slice_page (hn : 1 ≤ n) :
    slice l start (start + n - 1 : Int) = (l.drop start).take n := by
  have hfirst : ¬ (start : Int) < 0 := by omega
  have hlast : ¬ (start + n - 1 : Int) < 0 := by omega
  have hstop : ((start + n - 1 : Int) + 1).toNat = start + n := by omega
  simp only [slice, hfirst, hlast, if_false, hstop, Int.toNat_natCast]
  rw [List.drop_take, Nat.add_sub_cancel_left]

theorem slice_to_end (h : l.length ≤ start + n) : slice l start (-1) = (l.drop start).take n := by
  have hfirst : ¬ (start : Int) < 0 := by omega
  have hstop : (((l.length : Int) + -1) + 1).toNat = l.length := by omega
  simp only [slice, hfirst, if_false, Int.reduceNeg, Int.reduceLT, if_true, hstop,
    Int.toNat_natCast, List.take_length]
  rw [List.take_of_length_le]
  rw [List.length_drop]
  omega

/-- Consecutive pages of a list make up a prefix of it. -/
theorem flatMap_pages (l : List α) (n m : Nat) :
    ((List.range m).flatMap fun p => (l.drop (p * n)).take n) = l.take (m * n) := by
  induction m with
  | zero => simp
  | succ m ih =>
    rw [List.range_succ, List.flatMap_append, ih, List.flatMap_singleton, Nat.succ_mul,
      List.take_add]

end Slice

namespace SortedSet

variable {α : Type*} [LinearOrder α] (s : SortedSet α)

def empty : SortedSet α where
  entries := []
  sorted := .nil
  nodup := .nil

def members : List α := s.entries.map Prod.fst

def zscore (a : α) : Option Int := s.entries.lookup a

def zrank (a : α) : Option Nat := s.members.idxOf? a

def zrem (a : α) : SortedSet α where
  entries := s.entries.filter fun p => p.1 ≠ a
  sorted := s.sorted.filter _
  nodup := s.nodup.sublist (List.filter_sublist.map _)

def zadd (a : α) (score : Int) : SortedSet α where
  entries := (s.zrem a).entries.orderedInsert EntryLE (a, score)
  sorted := (s.zrem a).sorted.orderedInsert _ _
  nodup := by
    have hperm := ((s.zrem a).entries.perm_orderedInsert EntryLE (a, score)).map Prod.fst
    rw [hperm.nodup_iff, List.map_cons, List.nodup_cons]
    refine ⟨?_, (s.zrem a).nodup⟩
    intro hmem
    obtain ⟨p, hp, rfl⟩ := List.mem_map.mp hmem
    simp [zrem] at hp

/-- The set with the member's score increased, and the new score. -/
def zincrby (a : α) (increment : Int) : SortedSet α × Int :=
  let score := (s.zscore a).getD 0 + increment
  (s.zadd a score, score)

def zcount (min max : Int) : Nat := (s.entries.filter fun p => min ≤ p.2 ∧ p.2 ≤ max).length

def zrange (start stop : Int) : List α := slice s.members start stop

def zrevrange (start stop : Int) : List α := slice s.members.reverse start stop

variable {s} {a b : α} {score x : Int}

theorem zscore_eq_some : s.zscore a = some x ↔ (a, x) ∈ s.entries := by
  constructor
  · intro h
    obtain ⟨before, after, hentries, -⟩ := List.lookup_eq_some_iff.mp h
    rw [hentries]
    exact List.mem_append_right _ List.mem_cons_self
  · intro h
    cases hscore : s.zscore a with
    | none =>
      have hne := List.lookup_eq_none_iff.mp hscore (a, x) h
      simp at hne
    | some y =>
      obtain ⟨before, after, hentries, -⟩ := List.lookup_eq_some_iff.mp hscore
      have hy : (a, y) ∈ s.entries := by
        rw [hentries]
        exact List.mem_append_right _ List.mem_cons_self
      cases List.inj_on_of_nodup_map s.nodup h hy rfl
      rfl

theorem mem_members : a ∈ s.members ↔ ∃ x, s.zscore a = some x := by
  simp [members, zscore_eq_some]

theorem nodup_members : s.members.Nodup := s.nodup

theorem zrank_isSome : (s.zrank a).isSome = true ↔ a ∈ s.members := by
  simp [zrank]

@[simp] theorem zscore_empty : (empty : SortedSet α).zscore a = none := rfl

theorem eq_empty {s : SortedSet α} (h : s.members = []) : s = empty := by
  obtain ⟨entries, sorted, nodup⟩ := s
  obtain rfl : entries = [] := List.map_eq_nil_iff.mp h
  rfl

theorem zscore_zrem : (s.zrem a).zscore b = if b = a then none else s.zscore b := by
  apply Option.ext
  intro x
  rw [zscore_eq_some]
  by_cases h : b = a
  · simp [zrem, h]
  · simp [zrem, h, zscore_eq_some]

theorem zscore_zadd : (s.zadd a score).zscore b = if b = a then some score else s.zscore b := by
  apply Option.ext
  intro x
  rw [zscore_eq_some]
  by_cases h : b = a
  · subst h
    simp [zadd, zrem, eq_comm]
  · simp [zadd, zrem, h, zscore_eq_some]

theorem mem_members_zrem : b ∈ (s.zrem a).members ↔ b ≠ a ∧ b ∈ s.members := by
  simp only [mem_members, zscore_zrem]
  by_cases h : b = a <;> simp [h]

theorem mem_members_zadd : b ∈ (s.zadd a score).members ↔ b = a ∨ b ∈ s.members := by
  simp only [mem_members, zscore_zadd]
  by_cases h : b = a <;> simp [h]

/-- A set is what its scores are. -/
theorem ext_zscore {s t : SortedSet α} (h : ∀ a, s.zscore a = t.zscore a) : s = t := by
  have hmem (e : α × Int) : e ∈ s.entries ↔ e ∈ t.entries := by
    rw [← zscore_eq_some, ← zscore_eq_some, h e.1]
  have hperm : s.entries.Perm t.entries :=
    (List.perm_ext_iff_of_nodup (List.Nodup.of_map _ s.nodup) (List.Nodup.of_map _ t.nodup)).mpr
      hmem
  have hentries : s.entries = t.entries := by
    refine hperm.eq_of_pairwise ?_ s.sorted t.sorted
    intro p q _ _ hpq hqp
    rcases hpq with hlt | ⟨heq, hle⟩
    · rcases hqp with hlt' | ⟨heq', -⟩
      · exact absurd hlt (not_lt.mpr hlt'.le)
      · exact absurd heq'.symm hlt.ne
    · rcases hqp with hlt' | ⟨-, hle'⟩
      · exact absurd heq.symm hlt'.ne
      · exact Prod.ext (le_antisymm hle hle') heq
  cases s
  cases t
  cases hentries
  rfl

/-- If all scores are within the bounds, all members count. -/
theorem zcount_eq_length {min max : Int} (h : ∀ p ∈ s.entries, min ≤ p.2 ∧ p.2 ≤ max) :
    s.zcount min max = s.members.length := by
  rw [zcount, List.filter_eq_self.mpr (by simpa using h), members, List.length_map]

end SortedSet

end BigPlan.Lib
