import BigPlan.Auth.OrgTree

/-!
# Deletion of a node with all that is below it

The recursion has no list of the nodes it has seen: each call removes its node before it looks
for the nodes below, so a cycle is cut at the node where the deletion starts. What is below a
node is what reaches it by the links upward.
-/
namespace BigPlan.Auth.OrgTree

open Lib (Table)
open Lib.Forest Lib.Recursion
open Linked

variable {ε : Type} [Linked ε]

/-- The link upward of a row. -/
def above (t : Table ε) (id : Int) : Option Int := (t.findById id).bind aboveId

/-- What is left of a table without the row `id` and the rows from which it is reached. -/
structure Cascades (t t' : Table ε) (id : Int) : Prop where
  mem_iff : ∀ p, p ∈ t'.rows ↔ p ∈ t.rows ∧ ¬ Reaches (above t) p.1 id
  order : t'.rows.Sublist t.rows
  /-- No row names a row above it that is gone. -/
  above_kept : ∀ p ∈ t'.rows, ∀ a, aboveId p.2 = some a →
    (t.findById a).isSome → (t'.findById a).isSome

/-- The rows from which none of the ids is reached. -/
structure Pruned (t t' : Table ε) (ids : List Int) : Prop where
  mem_iff : ∀ p, p ∈ t'.rows ↔ p ∈ t.rows ∧ ∀ id ∈ ids, ¬ Reaches (above t) p.1 id
  order : t'.rows.Sublist t.rows

variable {t t' s : Table ε} {p : Int × ε} {id x y z : Int} {ids : List Int}

theorem above_eq_some : above t x = some y ↔ ∃ e, (x, e) ∈ t.rows ∧ aboveId e = some y := by
  rw [above, Option.bind_eq_some_iff]
  exact exists_congr fun e => and_congr Table.findById_eq_some Iff.rfl

theorem above_of_mem (hp : p ∈ t.rows) : above t p.1 = aboveId p.2 := by
  rw [above, Table.findById_eq_some.mpr hp, Option.bind_some]

theorem above_deleteAll_self : above (t.deleteAll [id]) id = none := by
  cases h : above (t.deleteAll [id]) id with
  | none => rfl
  | some y =>
    obtain ⟨e, hmem, -⟩ := above_eq_some.mp h
    simp at hmem

theorem above_deleteAll_of_ne (hne : x ≠ id) : above (t.deleteAll [id]) x = above t x := by
  apply Option.ext
  intro y
  simp [above_eq_some, hne]

namespace Pruned

theorem refl (t : Table ε) : Pruned t t [] := ⟨by simp, .refl _⟩

theorem above_of_above (h : Pruned t t' ids) (hx : above t' x = some y) : above t x = some y := by
  obtain ⟨e, hmem, he⟩ := above_eq_some.mp hx
  exact above_eq_some.mpr ⟨e, ((h.mem_iff _).mp hmem).1, he⟩

/-- A row that is left reaches what it reached: all rows on the way are left, too. -/
theorem reaches_iff (h : Pruned t t' ids) (hp : p ∈ t'.rows) :
    Reaches (above t') p.1 z ↔ Reaches (above t) p.1 z := by
  constructor
  · exact Reaches.mono fun x y => h.above_of_above
  · intro hreach
    refine @Reaches.restrict _ (above t) (above t') p.1 z {x | ∃ e, (x, e) ∈ t'.rows}
      ?_ ?_ hreach fun _ => ⟨p.2, hp⟩
    · intro x hx
      obtain ⟨e, hmem⟩ := hx
      exact (above_of_mem hmem).trans (above_of_mem ((h.mem_iff _).mp hmem).1).symm
    · intro x hx y hxy hne hyz
      obtain ⟨e, hmem⟩ := hx
      obtain ⟨w, hyw, -⟩ := hyz.of_ne hne
      obtain ⟨e', hmem', -⟩ := above_eq_some.mp hyw
      refine ⟨e', (h.mem_iff _).mpr ⟨hmem', fun id hid hreach => ?_⟩⟩
      exact ((h.mem_iff _).mp hmem).2 id hid (hreach.head hxy)

theorem cons (h : Pruned t s ids) (h' : Pruned s t' [id]) : Pruned t t' (id :: ids) where
  mem_iff p := by
    rw [h'.mem_iff, List.forall_mem_singleton, List.forall_mem_cons]
    constructor
    · intro hp
      have hmem := (h.mem_iff p).mp hp.1
      exact ⟨hmem.1, fun hreach => hp.2 ((h.reaches_iff hp.1).mpr hreach), hmem.2⟩
    · intro hp
      have hmem := (h.mem_iff p).mpr ⟨hp.1, hp.2.2⟩
      exact ⟨hmem, fun hreach => hp.2.1 ((h.reaches_iff hmem).mp hreach)⟩
  order := h'.order.trans h.order

end Pruned

theorem mem_kidsOf {rows : List (Int × ε)} : p ∈ kidsOf rows id ↔
    p ∈ rows ∧ aboveId p.2 = some id := by
  simp [kidsOf]

/-- What is left without the nodes below the removed one, and what is below them, is what is
left of the whole table. -/
theorem pruned_of_kids
    (h : Pruned (t.deleteAll [id]) t' ((findAllByAboveId (t.deleteAll [id]) id).map Prod.fst)) :
    Pruned t t' [id] where
  mem_iff p := by
    rw [h.mem_iff, Table.mem_deleteAll, List.forall_mem_singleton, List.mem_singleton, and_assoc]
    refine and_congr_right fun hp => ?_
    by_cases hid : p.1 = id
    · simp [hid, Reaches.refl]
    · rw [reaches_iff_of_cut (fun x hx => above_deleteAll_of_ne hx) above_deleteAll_self hid]
      constructor
      · intro hkids hexists
        obtain ⟨c, hc, hcid, hreach⟩ := hexists
        obtain ⟨e, hmem, he⟩ := above_eq_some.mp hcid
        refine hkids.2 c (List.mem_map.mpr ⟨(c, e), mem_kidsOf.mpr ⟨?_, he⟩, rfl⟩) hreach
        exact Table.mem_deleteAll.mpr ⟨hmem, by simpa using hc⟩
      · intro hnone
        refine ⟨hid, fun c hc hreach => hnone ?_⟩
        obtain ⟨q, hq, rfl⟩ := List.mem_map.mp hc
        obtain ⟨hmem, he⟩ := mem_kidsOf.mp hq
        obtain ⟨hmem, hne⟩ := Table.mem_deleteAll.mp hmem
        exact ⟨q.1, by simpa using hne, above_eq_some.mpr ⟨q.2, hmem, he⟩, hreach⟩
  order := h.order.trans List.filter_sublist

/-- None of the nodes below the removed one reaches another one of them. -/
theorem not_reaches_of_kids {q : Int × ε}
    (hp : p ∈ findAllByAboveId (t.deleteAll [id]) id)
    (hq : q ∈ findAllByAboveId (t.deleteAll [id]) id) (hne : p.1 ≠ q.1) :
    ¬ Reaches (above (t.deleteAll [id])) p.1 q.1 := by
  intro hreach
  obtain ⟨hmem, habove⟩ := mem_kidsOf.mp hp
  obtain ⟨y, hy, hyq⟩ := hreach.of_ne hne
  rw [above_of_mem hmem, habove] at hy
  cases hy
  have hid := hyq.eq_of_none above_deleteAll_self
  have hmem' := (mem_kidsOf.mp hq).1
  rw [Table.mem_deleteAll, ← hid] at hmem'
  simp at hmem'

/-- The deletion of a stored node returns: every call removes a row, and the rows below its node
are stored until it comes to them. -/
theorem returns_delete (hid : (t.findById id).isSome) :
    ∃ t', Returns (fun depth => delete depth id t) t' ∧ Pruned t t' [id] := by
  induction hn : t.rows.length using Nat.strong_induction_on generalizing t id with
  | h n ih =>
    let rest := t.deleteAll [id]
    let kids := findAllByAboveId rest id
    have hless : rest.rows.length < n := by
      obtain ⟨e, hmem⟩ := Table.isSome_findById.mp hid
      rw [← hn]
      exact List.length_filter_lt_length_iff_exists.mpr ⟨(id, e), hmem, by simp⟩
    have hnodup : (kids.map Prod.fst).Nodup := rest.nodup.sublist (List.filter_sublist.map _)
    -- the rounds done have pruned their nodes
    let I (s : Table ε) (l : List (Int × ε)) : Prop :=
      ∃ done, kids = done ++ l ∧ Pruned rest s (done.reverse.map Prod.fst)
    have hround s x l (h : I s (x :: l)) :
        ∃ s', Returns (fun depth => delete depth x.1 s) s' ∧ I s' l := by
      obtain ⟨done, hkids, hpruned⟩ := h
      have hx : x ∈ kids := hkids ▸ List.mem_append_right done List.mem_cons_self
      have hleft : x ∈ s.rows := by
        refine (hpruned.mem_iff x).mpr ⟨(mem_kidsOf.mp hx).1, fun c hc => ?_⟩
        obtain ⟨q, hq, rfl⟩ := List.mem_map.mp hc
        have hq := List.mem_reverse.mp hq
        have hqk : q ∈ kids := hkids ▸ List.mem_append_left _ hq
        refine not_reaches_of_kids hx hqk fun heq => ?_
        rw [hkids, List.map_append, List.nodup_append] at hnodup
        exact hnodup.2.2 q.1 (List.mem_map_of_mem hq) x.1 List.mem_cons_self heq.symm
      have hlength := hpruned.order.length_le
      obtain ⟨s', hs', hpruned'⟩ :=
        ih s.rows.length (by omega) (Table.isSome_findById_of_mem hleft) rfl
      refine ⟨s', hs', done ++ [x], by simpa using hkids, ?_⟩
      rw [List.reverse_append]
      exact hpruned.cons hpruned'
    obtain ⟨t', ht', done, hkids, hpruned⟩ := returns_foldlM hround ⟨[], rfl, .refl rest⟩
    have hpruned : Pruned rest t' (kids.map Prod.fst) := by
      rw [hkids, List.append_nil]
      exact ⟨fun p => by rw [hpruned.mem_iff]; simp, hpruned.order⟩
    refine ⟨t', returns_succ.mp ?_, pruned_of_kids hpruned⟩
    have hdelete : deleteById t id = .ok rest := if_pos hid
    exact (returns_of_eq hdelete).bind ht'

theorem Pruned.cascades (h : Pruned t t' [id]) : Cascades t t' id where
  mem_iff p := by rw [h.mem_iff, List.forall_mem_singleton]
  order := h.order
  above_kept p hp a ha hstored := by
    obtain ⟨hmem, hp'⟩ := (h.mem_iff p).mp hp
    obtain ⟨e, hae⟩ := Table.isSome_findById.mp hstored
    refine Table.isSome_findById.mpr ⟨e, (h.mem_iff _).mpr ⟨hae, fun z hz hreach => ?_⟩⟩
    exact hp' z hz (.head ((above_of_mem hmem).trans ha) hreach)

end BigPlan.Auth.OrgTree

namespace BigPlan.Auth

open Lib (Table)
open OrgTree

/-- `delete` of a stored id comes to an end and removes exactly the row and those from which it
is reached, for positions and for companies. -/
theorem delete_cascades :
    (∀ (t : Table PositionEntity) (id : Int), (t.findById id).isSome →
      ∃ t' n, (∀ depth, n ≤ depth → PositionServiceImpl.delete t depth id = (t', .ok true)) ∧
        Cascades t t' id) ∧
    ∀ (t : Table CompanyEntity) (id : Int), (t.findById id).isSome →
      ∃ t' n, (∀ depth, n ≤ depth → CompanyServiceImpl.delete t depth id = (t', .ok true)) ∧
        Cascades t t' id := by
  constructor
  · intro t id hid
    obtain ⟨t', ⟨n, hn⟩, hpruned⟩ := returns_delete hid
    refine ⟨t', n, fun depth hdepth => ?_, hpruned.cascades⟩
    have hdelete : OrgTree.delete depth id t = .ok t' := hn depth hdepth
    rw [PositionServiceImpl.delete, hdelete]
    rfl
  · intro t id hid
    obtain ⟨t', ⟨n, hn⟩, hpruned⟩ := returns_delete hid
    refine ⟨t', n, fun depth hdepth => ?_, hpruned.cascades⟩
    have hdelete : OrgTree.delete depth id t = .ok t' := hn depth hdepth
    rw [CompanyServiceImpl.delete, hdelete]
    rfl

/-- Two positions that are above each other, and one that is above itself. -/
def loops : Table PositionEntity :=
  Table.empty.insertAll [⟨"a", some 2, 1⟩, ⟨"b", some 1, 1⟩, ⟨"c", some 3, 1⟩]

theorem delete_cascades_loops :
    (∃ t' n, (∀ depth, n ≤ depth → PositionServiceImpl.delete loops depth 1 = (t', .ok true)) ∧
      Cascades loops t' 1) ∧
    ∃ t' n, (∀ depth, n ≤ depth → CompanyServiceImpl.delete
        (Table.empty.insert ⟨"d", none, "c"⟩) depth 1 = (t', .ok true)) ∧
      Cascades (Table.empty.insert ⟨"d", none, "c"⟩) t' 1 :=
  ⟨delete_cascades.1 loops 1 (by decide), delete_cascades.2 _ 1 (by decide)⟩

end BigPlan.Auth
