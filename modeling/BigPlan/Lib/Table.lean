import Mathlib.Data.List.Nodup

/-!
# Tables with an auto-increment key

A table is a list of rows under keys that were handed out one after the other. No two
rows share a key, and no row has the key that comes next.
-/
namespace BigPlan.Lib

structure Table (α : Type*) where
  rows : List (Int × α)
  next : Int
  nodup : (rows.map Prod.fst).Nodup
  fresh : ∀ p ∈ rows, p.1 < next

namespace Table

variable {α : Type*} (t : Table α)

def empty : Table α where
  rows := []
  next := 1
  nodup := List.nodup_nil
  fresh _ h := by cases h

def findById (id : Int) : Option α := t.rows.lookup id

def insert (a : α) : Table α where
  rows := t.rows ++ [(t.next, a)]
  next := t.next + 1
  nodup := by
    rw [List.map_append, List.nodup_append]
    refine ⟨t.nodup, List.nodup_singleton _, ?_⟩
    intro id hid id' hid' heq
    obtain ⟨p, hp, rfl⟩ := List.mem_map.mp hid
    have hlt := t.fresh p hp
    rw [List.map_singleton, List.mem_singleton] at hid'
    omega
  fresh p hp := by
    rcases List.mem_append.mp hp with h | h
    · have hlt := t.fresh p h
      omega
    · rw [List.mem_singleton.mp h]
      exact Int.lt_succ _

def insertAll (as : List α) : Table α := as.foldl insert t

/-- The row under the key becomes the given one; without one, nothing happens. -/
def put (id : Int) (a : α) : Table α where
  rows := t.rows.map fun p => (p.1, if p.1 = id then a else p.2)
  next := t.next
  nodup := by
    rw [List.map_map]
    exact t.nodup
  fresh p hp := by
    obtain ⟨q, hq, rfl⟩ := List.mem_map.mp hp
    exact t.fresh q hq

def mapRows (f : α → α) : Table α where
  rows := t.rows.map fun p => (p.1, f p.2)
  next := t.next
  nodup := by
    rw [List.map_map]
    exact t.nodup
  fresh p hp := by
    obtain ⟨q, hq, rfl⟩ := List.mem_map.mp hp
    exact t.fresh q hq

def deleteAll (ids : List Int) : Table α where
  rows := t.rows.filter fun p => p.1 ∉ ids
  next := t.next
  nodup := t.nodup.sublist (List.filter_sublist.map _)
  fresh p hp := t.fresh p (List.mem_of_mem_filter hp)

variable {t} {p q : Int × α} {id : Int} {a : α}

theorem eq_of_mem (hp : p ∈ t.rows) (hq : q ∈ t.rows) (h : p.1 = q.1) : p = q :=
  List.inj_on_of_nodup_map t.nodup hp hq h

theorem findById_eq_some : t.findById id = some a ↔ (id, a) ∈ t.rows := by
  constructor
  · intro h
    obtain ⟨before, after, hrows, -⟩ := List.lookup_eq_some_iff.mp h
    rw [hrows]
    exact List.mem_append_right _ List.mem_cons_self
  · intro h
    cases hfind : t.findById id with
    | none =>
      have hne := List.lookup_eq_none_iff.mp hfind (id, a) h
      simp at hne
    | some b =>
      obtain ⟨before, after, hrows, -⟩ := List.lookup_eq_some_iff.mp hfind
      have hb : (id, b) ∈ t.rows := by
        rw [hrows]
        exact List.mem_append_right _ List.mem_cons_self
      cases eq_of_mem h hb rfl
      rfl

theorem isSome_findById : (t.findById id).isSome ↔ ∃ a, (id, a) ∈ t.rows := by
  rw [Option.isSome_iff_exists]
  exact exists_congr fun a => findById_eq_some

theorem isSome_findById_of_mem (hp : p ∈ t.rows) : (t.findById p.1).isSome :=
  isSome_findById.mpr ⟨p.2, hp⟩

@[simp] theorem next_insert : (t.insert a).next = t.next + 1 := rfl

@[simp] theorem next_mapRows (f : α → α) : (t.mapRows f).next = t.next := rfl

@[simp] theorem next_deleteAll (ids : List Int) : (t.deleteAll ids).next = t.next := rfl

@[simp] theorem insertAll_nil : t.insertAll [] = t := rfl

@[simp] theorem deleteAll_nil : t.deleteAll [] = t := by
  have hrows : (t.deleteAll []).rows = t.rows := by simp [deleteAll]
  obtain ⟨rows, next, nodup, fresh⟩ := t
  simp only [deleteAll, mk.injEq] at hrows ⊢
  exact ⟨hrows, trivial⟩

@[simp] theorem mem_insert : p ∈ (t.insert a).rows ↔ p ∈ t.rows ∨ p = (t.next, a) := by
  simp [insert]

@[simp] theorem mem_deleteAll {ids : List Int} :
    p ∈ (t.deleteAll ids).rows ↔ p ∈ t.rows ∧ p.1 ∉ ids := by
  simp [deleteAll]

theorem mem_mapRows {f : α → α} : p ∈ (t.mapRows f).rows ↔ ∃ q ∈ t.rows, (q.1, f q.2) = p := by
  simp [mapRows]

theorem mapRows_eq_self {f : α → α} (h : ∀ p ∈ t.rows, f p.2 = p.2) : t.mapRows f = t := by
  have hrows : (t.mapRows f).rows = t.rows := by
    unfold mapRows
    conv_rhs => rw [← List.map_id t.rows]
    apply List.map_congr_left
    intro p hp
    rw [h p hp]
    rfl
  obtain ⟨rows, next, nodup, fresh⟩ := t
  simp only [mapRows, mk.injEq] at hrows ⊢
  exact ⟨hrows, trivial⟩

theorem mem_put : p ∈ (t.put id a).rows ↔
    (p ∈ t.rows ∧ p.1 ≠ id) ∨ (p = (id, a) ∧ ∃ b, (id, b) ∈ t.rows) := by
  simp only [put, List.mem_map]
  constructor
  · rintro ⟨q, hq, rfl⟩
    by_cases h : q.1 = id
    · subst h
      exact .inr ⟨by simp, q.2, hq⟩
    · exact .inl ⟨by simpa [h] using hq, h⟩
  · rintro (⟨hp, hne⟩ | ⟨rfl, b, hb⟩)
    · exact ⟨p, hp, by simp [hne]⟩
    · exact ⟨(id, b), hb, by simp⟩

theorem put_eq_self (h : t.findById id = some a) : t.put id a = t := by
  have hrows : (t.put id a).rows = t.rows := by
    unfold put
    conv_rhs => rw [← List.map_id t.rows]
    apply List.map_congr_left
    intro p hp
    by_cases hid : p.1 = id
    · rw [if_pos hid, eq_of_mem hp (findById_eq_some.mp h) hid]
      rfl
    · rw [if_neg hid]
      rfl
  obtain ⟨rows, next, nodup, fresh⟩ := t
  simp only [put, mk.injEq] at hrows ⊢
  exact ⟨hrows, trivial⟩

theorem put_put {b : α} : (t.put id a).put id b = t.put id b := by
  simp only [put, List.map_map, mk.injEq, and_true]
  apply List.map_congr_left
  intro p _
  by_cases hid : p.1 = id <;> simp [hid]

theorem findById_put {b : α} (h : t.findById id = some a) : (t.put id b).findById id = some b :=
  findById_eq_some.mpr (mem_put.mpr (.inr ⟨rfl, a, findById_eq_some.mp h⟩))

theorem findById_put_of_ne {id' : Int} (hne : id' ≠ id) :
    (t.put id a).findById id' = t.findById id' := by
  apply Option.ext
  intro b
  rw [findById_eq_some, findById_eq_some, mem_put]
  simp [hne]

/-- The new rows get the next keys in the order of the list. -/
theorem mem_insertAll {as : List α} :
    p ∈ (t.insertAll as).rows ↔
      p ∈ t.rows ∨ ∃ (i : ℕ) (a : α), as[i]? = some a ∧ p = (t.next + i, a) := by
  induction as generalizing t with
  | nil => simp [insertAll]
  | cons b as ih =>
    have hcons : t.insertAll (b :: as) = (t.insert b).insertAll as := rfl
    rw [hcons, ih, mem_insert, next_insert]
    constructor
    · rintro ((h | h) | ⟨i, a, ha, hp⟩)
      · exact .inl h
      · exact .inr ⟨0, b, rfl, by simpa using h⟩
      · refine .inr ⟨i + 1, a, ha, ?_⟩
        rw [hp]
        congr 1
        omega
    · rintro (h | ⟨i, a, ha, hp⟩)
      · exact .inl (.inl h)
      · cases i with
        | zero =>
          cases ha
          exact .inl (.inr (by simpa using hp))
        | succ i =>
          refine .inr ⟨i, a, ha, ?_⟩
          rw [hp]
          congr 1
          omega

theorem next_insertAll (as : List α) : (t.insertAll as).next = t.next + as.length := by
  induction as generalizing t with
  | nil => simp [insertAll]
  | cons b as ih =>
    have hcons : t.insertAll (b :: as) = (t.insert b).insertAll as := rfl
    rw [hcons, ih, next_insert, List.length_cons]
    omega

end Table

end BigPlan.Lib
