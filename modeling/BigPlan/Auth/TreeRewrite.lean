import BigPlan.Auth.CascadingDelete
import Mathlib.Data.List.Perm.Basic

/-!
# Rewriting the tree

`updateAll` gives each submitted node that is stored its submitted parent, as far as all nodes
above it are stored. The rows that are not submitted keep what is above them, so that the rows
are still a forest, and `findTree` shows the forest that was submitted.
-/
namespace BigPlan.Auth.OrgTree

open Lib (Table)
open Lib.Decimal Lib.Forest Lib.Forest.RoseTree Lib.Recursion
open Linked

section Stored

variable {ε : Type} {t t' : Table ε} {x : Int}

def stored (t : Table ε) (id : Int) : Bool := (t.findById id).isSome

theorem stored_iff : stored t x = true ↔ x ∈ t.rows.map Prod.fst := by
  rw [stored, Table.isSome_findById, List.mem_map]
  constructor
  · intro h
    obtain ⟨e, hmem⟩ := h
    exact ⟨(x, e), hmem, rfl⟩
  · intro h
    obtain ⟨p, hp, rfl⟩ := h
    exact ⟨p.2, hp⟩

theorem stored_congr (h : t'.rows.map Prod.fst = t.rows.map Prod.fst) : stored t' = stored t := by
  funext x
  rw [Bool.eq_iff_iff, stored_iff, stored_iff, h]

theorem mem_keys_filter {rows : List (Int × ε)} {sel : ε → Bool} :
    x ∈ (rows.filter fun p => sel p.2).map Prod.fst ↔ ∃ e, (x, e) ∈ rows ∧ sel e = true := by
  rw [List.mem_map]
  constructor
  · intro h
    obtain ⟨p, hp, rfl⟩ := h
    exact ⟨p.2, List.mem_filter.mp hp⟩
  · intro h
    obtain ⟨e, he⟩ := h
    exact ⟨(x, e), List.mem_filter.mpr he, rfl⟩

end Stored

variable {ε : Type} [Linked ε]

/-- Every row has an id above it, and reaches 0, which is the root of all and no row: the ids of
the rows start at 1. -/
structure IsForest (t : Table ε) : Prop where
  linked : ∀ p ∈ t.rows, (aboveId p.2).isSome
  root : t.findById 0 = none
  reaches : ∀ p ∈ t.rows, Reaches (above t) p.1 0

/-- The ids of a submitted node and of those below it. -/
def numericIds (node : ElmUiTreeNode) : RoseTree (Option Int) := node.map fun fields => parseLong fields.id

/-- The forest of ids that the nodes have, all of which are numbers. -/
def Numbered (nodes : List ElmUiTreeNode) (trees : List (RoseTree Int)) : Prop :=
  nodes.map numericIds = trees.map (map some)

/-- What a rewrite with the given forest makes of the rows. -/
structure Rewritten (t t' : Table ε) (trees : List (RoseTree Int)) : Prop where
  forest : IsForest t'
  acyclic : ∀ id, ¬ Relation.TransGen (fun x y => above t' x = some y) id id
  ids : t'.rows.map Prod.fst = t.rows.map Prod.fst
  unsubmitted : ∀ p ∈ t.rows, p.1 ∉ valuesAll trees → p ∈ t'.rows
  submitted : ∀ id q, Hangs (stored t) 0 trees id q → stored t id → above t' id = some q

/-! ## The writes -/

/-- One row gets another id above it. -/
def relink (t : Table ε) (id a : Int) : Table ε :=
  match t.findById id with
  | none => t
  | some entity => t.put id (setAboveId a entity)

def relinkAll (t : Table ε) (links : List (Int × Int)) : Table ε :=
  links.foldl (fun t link => relink t link.1 link.2) t

variable {t t' : Table ε} {id x q a : Int} {e : ε} {links : List (Int × Int)}
  {trees : List (RoseTree Int)} {nodes : List ElmUiTreeNode}

theorem relinkAll_cons (link : Int × Int) :
    relinkAll t (link :: links) = relinkAll (relink t link.1 link.2) links := rfl

theorem relinkAll_append (links' : List (Int × Int)) :
    relinkAll t (links ++ links') = relinkAll (relinkAll t links) links' := List.foldl_append

theorem findById_relink_of_ne (hne : x ≠ id) :
    (relink t id a).findById x = t.findById x := by
  unfold relink
  split
  · rfl
  · exact Table.findById_put_of_ne hne

theorem findById_relink_self :
    (relink t id a).findById id = (t.findById id).map (setAboveId a) := by
  unfold relink
  split
  · rename_i h
    rw [h]
    rfl
  · rename_i entity h
    rw [h, Table.findById_put h]
    rfl

@[simp] theorem keys_relinkAll : (relinkAll t links).rows.map Prod.fst = t.rows.map Prod.fst := by
  induction links generalizing t with
  | nil => rfl
  | cons link links ih =>
    rw [relinkAll_cons, ih]
    unfold relink
    split
    · rfl
    · rw [Table.put, List.map_map]
      rfl

theorem findById_relinkAll_of_notMem (h : x ∉ links.map Prod.fst) :
    (relinkAll t links).findById x = t.findById x := by
  induction links generalizing t with
  | nil => rfl
  | cons link links ih =>
    rw [List.map_cons, List.mem_cons, not_or] at h
    rw [relinkAll_cons, ih h.2, findById_relink_of_ne h.1]

theorem findById_relinkAll_of_mem (hnodup : (links.map Prod.fst).Nodup) (h : (x, q) ∈ links) :
    (relinkAll t links).findById x = (t.findById x).map (setAboveId q) := by
  induction links generalizing t with
  | nil => cases h
  | cons link links ih =>
    rw [List.map_cons, List.nodup_cons] at hnodup
    rw [relinkAll_cons]
    rcases List.mem_cons.mp h with rfl | h
    · rw [findById_relinkAll_of_notMem hnodup.1, findById_relink_self]
    · have hne : x ≠ link.1 := fun heq => hnodup.1 (heq ▸ List.mem_map_of_mem h)
      rw [ih hnodup.2 h, findById_relink_of_ne hne]

/-! ## What the recursion writes -/

theorem Numbered.cons {fields : NodeFields} {children rest : List ElmUiTreeNode}
    (h : Numbered (.node fields children :: rest) trees) :
    ∃ id below after, trees = .node id below :: after ∧ parseLong fields.id = some id ∧
      Numbered children below ∧ Numbered rest after := by
  cases trees with
  | nil => cases h
  | cons tree after =>
    obtain ⟨id, below⟩ := tree
    simp only [Numbered, numericIds, map, mapAll_eq_map, List.map_cons, List.cons.injEq,
      RoseTree.node.injEq] at h
    exact ⟨id, below, after, rfl, h.1.1, h.1.2, h.2⟩

section Steps

variable {fields : NodeFields} {children list : List ElmUiTreeNode} {node : ElmUiTreeNode}

theorem scanNode_of_none (hid : parseLong fields.id = some id) (h : t.findById id = none) :
    scanNode a (.node fields children) t = (t, .ok ()) := by
  rw [scanNode, hid]
  dsimp only
  rw [h]

theorem scanNode_of_some (hid : parseLong fields.id = some id) (h : t.findById id = some e) :
    scanNode a (.node fields children) t = deepScanUpdate id children (relink t id a) := by
  rw [scanNode, hid, relink, h]
  dsimp only
  rw [h]

theorem deepScanUpdate_cons (h : scanNode a node t = (t', .ok ())) :
    deepScanUpdate a (node :: list) t = deepScanUpdate a list t' := by
  rw [deepScanUpdate, h]

theorem updateAll_of_none (hid : parseLong fields.id = some id) (h : t.findById id = none) :
    updateAll (.node fields children :: list) t = updateAll list t := by
  rw [updateAll, hid]
  dsimp only
  rw [h]

/-- A root that has an id above it is rewritten like every other node. -/
theorem updateAll_of_some (hid : parseLong fields.id = some id) (h : t.findById id = some e)
    (he : (aboveId e).isSome)
    (hchildren : deepScanUpdate id children (relink t id 0) = (t', .ok ())) :
    updateAll (.node fields children :: list) t = updateAll list t' := by
  rw [relink, h] at hchildren
  rw [updateAll, hid]
  dsimp only
  rw [h]
  dsimp only at hchildren ⊢
  rw [if_pos he, hchildren]

end Steps

@[simp] theorem stored_relinkAll : stored (relinkAll t links) = stored t :=
  stored_congr keys_relinkAll

/-- The writes below a node and those after it come one after the other. -/
theorem deepScanUpdate_eq (h : Numbered nodes trees) (t : Table ε) (a : Int) :
    deepScanUpdate a nodes t = (relinkAll t (linksAll (stored t) a trees), .ok ()) := by
  induction nodes using forest_induction generalizing trees t a with
  | nil =>
    cases trees with
    | nil => rfl
    | cons tree after => cases h
  | cons fields children rest ihc ihs =>
    obtain ⟨id, below, after, rfl, hid, hchildren, hrest⟩ := h.cons
    cases hfind : t.findById id with
    | none =>
      rw [linksAll_cons_of_not (by simp [stored, hfind]),
        deepScanUpdate_cons (scanNode_of_none hid hfind)]
      exact ihs hrest t a
    | some entity =>
      have hstored : stored (relink t id a) = stored t := @stored_relinkAll _ _ t [(id, a)]
      have hscan := (scanNode_of_some hid hfind (a := a)).trans (ihc hchildren _ id)
      rw [hstored] at hscan
      rw [linksAll_cons (by simp [stored, hfind]), deepScanUpdate_cons hscan, ihs hrest,
        stored_relinkAll, hstored, relinkAll_cons, relinkAll_append]

theorem linked_relink (h : ∀ p ∈ t.rows, (aboveId p.2).isSome) :
    ∀ p ∈ (relink t id a).rows, (aboveId p.2).isSome := by
  intro p hp
  unfold relink at hp
  split at hp
  · exact h p hp
  · rcases Table.mem_put.mp hp with hp | ⟨rfl, -⟩
    · exact h p hp.1
    · simp

theorem linked_relinkAll (h : ∀ p ∈ t.rows, (aboveId p.2).isSome) :
    ∀ p ∈ (relinkAll t links).rows, (aboveId p.2).isSome := by
  induction links generalizing t with
  | nil => exact h
  | cons link links ih => exact ih (linked_relink h)

theorem updateAll_eq (h : Numbered nodes trees) (hlinked : ∀ p ∈ t.rows, (aboveId p.2).isSome) :
    updateAll nodes t = (relinkAll t (linksAll (stored t) 0 trees), .ok ()) := by
  induction nodes generalizing trees t with
  | nil =>
    cases trees with
    | nil => rfl
    | cons tree after => cases h
  | cons node rest ih =>
    obtain ⟨fields, children⟩ := node
    obtain ⟨id, below, after, rfl, hid, hchildren, hrest⟩ := h.cons
    cases hfind : t.findById id with
    | none =>
      rw [linksAll_cons_of_not (by simp [stored, hfind]), updateAll_of_none hid hfind]
      exact ih hrest hlinked
    | some entity =>
      have hstored : stored (relink t id 0) = stored t := @stored_relinkAll _ _ t [(id, 0)]
      have hscan := deepScanUpdate_eq hchildren (relink t id 0) id
      have he := hlinked (id, entity) (Table.findById_eq_some.mp hfind)
      have hwrites : relinkAll (relink t id 0) (linksAll (stored t) id below) =
          relinkAll t ((id, 0) :: linksAll (stored t) id below) := rfl
      rw [hstored, hwrites] at hscan
      rw [linksAll_cons (by simp [stored, hfind]), updateAll_of_some hid hfind he hscan,
        ih hrest (linked_relinkAll hlinked), stored_relinkAll, ← List.cons_append, relinkAll_append]

/-! ## The forest afterwards -/

theorem above_relinkAll_of_notMem (h : x ∉ links.map Prod.fst) :
    above (relinkAll t links) x = above t x := by
  rw [above, above, findById_relinkAll_of_notMem h]

theorem above_relinkAll_of_mem (hnodup : (links.map Prod.fst).Nodup) (h : (x, q) ∈ links)
    (hx : stored t x = true) : above (relinkAll t links) x = some q := by
  obtain ⟨e, he⟩ := Option.isSome_iff_exists.mp hx
  rw [above, findById_relinkAll_of_mem hnodup h, he]
  simp

theorem rewritten_relinkAll (h : IsForest t) (hnodup : (valuesAll trees).Nodup) :
    Rewritten t (relinkAll t (linksAll (stored t) 0 trees)) trees := by
  have hlinks : ((linksAll (stored t) 0 trees).map Prod.fst).Nodup :=
    hnodup.sublist linksAll_sublist
  have hwritten x q (hx : (x, q) ∈ linksAll (stored t) 0 trees) :
      above (relinkAll t (linksAll (stored t) 0 trees)) x = some q :=
    above_relinkAll_of_mem hlinks hx (of_mem_linksAll hx)
  -- what is written reaches 0 in the forest submitted, and the other chains run into it
  have hreaches : ∀ p ∈ (relinkAll t (linksAll (stored t) 0 trees)).rows,
      Reaches (above (relinkAll t (linksAll (stored t) 0 trees))) p.1 0 := by
    intro p hp
    have hkey := List.mem_map_of_mem (f := Prod.fst) hp
    rw [keys_relinkAll] at hkey
    obtain ⟨q, hq, hqp⟩ := List.mem_map.mp hkey
    refine Reaches.rewrite (S := {x | x ∈ (linksAll (stored t) 0 trees).map Prod.fst})
      (fun x hx => above_relinkAll_of_notMem hx) ?_ (hqp ▸ h.reaches q hq)
    intro x hx
    obtain ⟨link, hlink, rfl⟩ := List.mem_map.mp hx
    exact reaches_of_linksAll hwritten (.refl 0) hlink
  have hroot : (relinkAll t (linksAll (stored t) 0 trees)).findById 0 = none := by
    have hstored := congrFun (@stored_relinkAll _ _ t (linksAll (stored t) 0 trees)) 0
    simpa [stored, h.root] using hstored
  refine ⟨⟨linked_relinkAll h.linked, hroot, hreaches⟩, ?_, keys_relinkAll, ?_, ?_⟩
  · intro id hcycle
    obtain ⟨y, hy, -⟩ := Relation.TransGen.head'_iff.mp hcycle
    obtain ⟨e, hmem, -⟩ := above_eq_some.mp hy
    exact (hreaches _ hmem).not_cycle (by rw [above, hroot]; rfl) hcycle
  · intro p hp hsubmitted
    have hfind := findById_relinkAll_of_notMem (t := t)
      fun hmem => hsubmitted (linksAll_sublist (S := stored t) (p := 0) |>.subset hmem)
    exact Table.findById_eq_some.mp (hfind.trans (Table.findById_eq_some.mpr hp))
  · intro id q hhangs hid
    exact hwritten id q (mem_linksAll_of_hangs hhangs hid)

/-! ## Reading the forest back -/

section ReadBack

variable (data : Int × ε → Option (Int × CompanyEntity)) {all : List (Int × ε)} {tree : RoseTree Int}
  {p : Int × ε}

/-- Rows whose ids are the roots of a forest, in some order, are shown as the forest. -/
theorem returns_mapM_deepScanPosition {rows : List (Int × ε)}
    (hroots : (rows.map Prod.fst).Perm (trees.map value))
    (hscan : ∀ p ∈ rows, ∀ tree ∈ trees, p.1 = tree.value →
      ∃ node, Returns (fun depth => deepScanPosition data all depth p) node ∧
        SameForest [numericIds node] [tree.map some]) :
    ∃ list, Returns (fun depth => rows.mapM (deepScanPosition data all depth)) list ∧
      SameForest (list.map numericIds) (trees.map (map some)) := by
  have hvalues : List.Forall₂ (fun id tree => id = tree.value) (trees.map value) trees :=
    List.forall₂_map_left_iff.mpr (List.forall₂_same.mpr fun tree _ => rfl)
  obtain ⟨trees', hrows, hperm⟩ := List.perm_comp_forall₂ hroots hvalues
  rw [List.forall₂_map_left_iff] at hrows
  obtain ⟨list, hlist, hsame⟩ := returns_mapM_of_forall₂ hrows
    fun p hp tree htree hvalue => hscan p hp tree (hperm.subset htree) hvalue
  refine ⟨list, hlist, .trans (.of_forall₂ ?_) (.of_perm (hperm.map _))⟩
  exact List.forall₂_map_left_iff.mpr (List.forall₂_map_right_iff.mpr hsame)

theorem returns_deepScanPosition (hlong : ∀ p ∈ all, IsLong p.1)
    (h : Lists (fun id => (kidsOf all id).map Prod.fst) tree) (hp : p ∈ all)
    (hvalue : p.1 = tree.value) :
    ∃ node, Returns (fun depth => deepScanPosition data all depth p) node ∧
      SameForest [numericIds node] [tree.map some] := by
  induction h generalizing p with
  | @node id children hkids hchildren ih =>
    cases hvalue
    obtain ⟨list, hlist, hsame⟩ := returns_mapM_deepScanPosition data hkids
      fun q hq tree htree hvalue => ih tree htree (mem_kidsOf.mp hq).1 hvalue
    refine ⟨.node ⟨some p.1.repr, some (name p.2), data p⟩ list, returns_succ.mp ?_, ?_⟩
    · exact hlist.bind (returns_pure _)
    · simp only [numericIds, map, mapAll_eq_map, parseLong_repr (hlong p hp)]
      exact .cons hsame .nil

theorem isLong_of_numbered (h : Numbered nodes trees) : ∀ id ∈ valuesAll trees, IsLong id := by
  induction nodes using forest_induction generalizing trees with
  | nil =>
    cases trees with
    | nil => intro id hid; cases hid
    | cons tree after => cases h
  | cons fields children rest ihc ihs =>
    obtain ⟨id, below, after, rfl, hid, hchildren, hrest⟩ := h.cons
    intro x hx
    rw [valuesAll_cons] at hx
    rcases List.mem_cons.mp hx with rfl | hx
    · exact isLong_of_parseLong hid
    · rcases List.mem_append.mp hx with hx | hx
      · exact ihc hchildren x hx
      · exact ihs hrest x hx

/-- A selection that does not depend on the id above selects the same ids after the writes. -/
theorem sel_relinkAll {sel : ε → Bool} (hsel : ∀ a e, sel (setAboveId a e) = sel e) :
    ((relinkAll t links).rows.filter fun p => sel p.2).map Prod.fst =
      (t.rows.filter fun p => sel p.2).map Prod.fst := by
  induction links generalizing t with
  | nil => rfl
  | cons link links ih =>
    rw [relinkAll_cons, ih]
    unfold relink
    split
    · rfl
    · rename_i entity hfind
      rw [Table.put, List.filter_map, List.map_map]
      refine congrArg (List.map Prod.fst) (List.filter_congr fun p hp => ?_)
      by_cases hid : p.1 = link.1
      · have hentity := Table.eq_of_mem hp (Table.findById_eq_some.mp hfind) hid
        simp [hentity, hsel]
      · simp [hid]

theorem returns_findTree (label : String) (sel : ε → Bool)
    (hsel : ∀ a e, sel (setAboveId a e) = sel e) (h : IsForest t) (hnumbered : Numbered nodes trees)
    (hnodup : (valuesAll trees).Nodup)
    (hids : ∀ id, id ∈ valuesAll trees ↔ ∃ e, (id, e) ∈ t.rows ∧ sel e = true) :
    ∃ list, Returns (findTree label data
        ((relinkAll t (linksAll (stored t) 0 trees)).rows.filter fun p => sel p.2))
        [.node { id := some "0", label := some label } list] ∧
      SameForest (list.map numericIds) (trees.map (map some)) := by
  let t' := relinkAll t (linksAll (stored t) 0 trees)
  let all := t'.rows.filter fun p => sel p.2
  let kids (id : Int) : List Int := (kidsOf all id).map Prod.fst
  have hrewritten : Rewritten t t' trees := rewritten_relinkAll h hnodup
  have hstored : ∀ id ∈ valuesAll trees, stored t id = true := by
    intro id hid
    obtain ⟨e, hmem, -⟩ := (hids id).mp hid
    exact Table.isSome_findById_of_mem hmem
  have hall id : id ∈ all.map Prod.fst ↔ id ∈ valuesAll trees := by
    rw [sel_relinkAll hsel, mem_keys_filter, hids]
  have hroot : 0 ∉ valuesAll trees := by
    intro hmem
    have hzero := hstored 0 hmem
    rw [stored, h.root] at hzero
    cases hzero
  -- the rows below an id are the nodes that the forest has there
  have hwritten x q e (hx : (x, q) ∈ linksAll (stored t) 0 trees) (he : (x, e) ∈ t'.rows) :
      aboveId e = some q := by
    have hlinks := hnodup.sublist (linksAll_sublist (S := stored t) (p := 0))
    exact (above_of_mem he).symm.trans (above_relinkAll_of_mem hlinks hx (of_mem_linksAll hx))
  have hkids id x : x ∈ kids id ↔ (x, id) ∈ linksAll (stored t) 0 trees := by
    constructor
    · intro hx
      obtain ⟨p, hp, rfl⟩ := List.mem_map.mp hx
      obtain ⟨hmem, hid⟩ := mem_kidsOf.mp hp
      have hvalue := (hall p.1).mp (List.mem_map_of_mem hmem)
      rw [← map_fst_linksAll (p := 0) hstored] at hvalue
      obtain ⟨link, hlink, heq⟩ := List.mem_map.mp hvalue
      have hq := hwritten p.1 link.2 p.2 (heq ▸ hlink) (List.mem_of_mem_filter hmem)
      rw [hid] at hq
      cases hq
      rwa [← heq]
    · intro hx
      have hvalue := linksAll_sublist.subset (List.mem_map_of_mem (f := Prod.fst) hx)
      obtain ⟨p, hp, rfl⟩ := List.mem_map.mp ((hall x).mpr hvalue)
      have hid := hwritten p.1 id p.2 hx (List.mem_of_mem_filter hp)
      exact List.mem_map_of_mem (mem_kidsOf.mpr ⟨hp, hid⟩)
  have hnodupKids id : (kids id).Nodup :=
    t'.nodup.sublist ((List.filter_sublist.trans List.filter_sublist).map _)
  have hlists : ∀ tree ∈ trees, Lists kids tree :=
    lists_of_linksAll hstored hroot hnodup fun id _ => ⟨hnodupKids id, hkids id⟩
  have htop : (kids 0).Perm (trees.map value) := by
    refine (List.perm_ext_iff_of_nodup (hnodupKids 0) (hnodup.sublist roots_sublist)).mpr ?_
    exact fun x => (hkids 0 x).trans (mem_linksAll_top hstored hroot)
  have hlong : ∀ p ∈ all, IsLong p.1 := fun p hp =>
    isLong_of_numbered hnumbered p.1 ((hall p.1).mp (List.mem_map_of_mem hp))
  obtain ⟨list, hlist, hsame⟩ := returns_mapM_deepScanPosition data htop
    fun p hp tree htree hvalue =>
      returns_deepScanPosition data hlong (hlists tree htree) (mem_kidsOf.mp hp).1 hvalue
  refine ⟨list, ?_, hsame⟩
  have hgrouped : ¬ (all.any fun p => (aboveId p.2).isNone) = true := by
    rw [List.any_eq_true, not_exists]
    intro p hp
    have hlinked := hrewritten.forest.linked p (List.mem_of_mem_filter hp.1)
    rw [Option.isSome_iff_exists] at hlinked
    obtain ⟨a, ha⟩ := hlinked
    simp [ha] at hp
  change Returns (fun depth => findTree label data all depth) _
  simp only [findTree, if_neg hgrouped]
  exact hlist.bind (returns_pure _)

end ReadBack

/-- With enough stack, the result is one root with the forest below it. -/
def Shows (result : ℕ → Except Thrown (List ElmUiTreeNode)) (label : String)
    (trees : List (RoseTree Int)) : Prop :=
  ∃ list n, (∀ depth, n ≤ depth →
      result depth = .ok [.node { id := some "0", label := some label } list]) ∧
    SameForest (list.map numericIds) (trees.map (map some))

end BigPlan.Auth.OrgTree

namespace BigPlan.Auth

open Lib (Table)
open Lib.Forest Lib.Forest.RoseTree
open OrgTree

/-- `updateAll` makes the rows a forest again that agrees with the submitted one where it can,
and if the rows of one company or one client are submitted, `findTree` shows what was. -/
theorem updateAll_rewrites :
    (∀ (t : Table PositionEntity) (nodes : List ElmUiTreeNode) (trees : List (RoseTree Int)),
      IsForest t → Numbered nodes trees → (valuesAll trees).Nodup →
      ∃ t', PositionServiceImpl.updateAll t nodes = (t', .ok true) ∧ Rewritten t t' trees ∧
        ∀ companyId,
          (∀ id, id ∈ valuesAll trees ↔ ∃ e, (id, e) ∈ t.rows ∧ e.companyId = companyId) →
          Shows (fun depth => PositionServiceImpl.findTree t' depth companyId) "组织架构" trees) ∧
    ∀ (t : Table CompanyEntity) (nodes : List ElmUiTreeNode) (trees : List (RoseTree Int)),
      IsForest t → Numbered nodes trees → (valuesAll trees).Nodup →
      ∃ t', CompanyServiceImpl.updateAll t nodes = (t', .ok true) ∧ Rewritten t t' trees ∧
        ∀ accessCard,
          (∀ id, id ∈ valuesAll trees ↔
            ∃ e, (id, e) ∈ t.rows ∧ e.clientId = User.checkClientId accessCard) →
          Shows (fun depth => CompanyServiceImpl.findTree t' depth accessCard) "公司架构" trees := by
  constructor
  · intro t nodes trees hforest hnumbered hnodup
    refine ⟨_, ?_, rewritten_relinkAll hforest hnodup, ?_⟩
    · rw [PositionServiceImpl.updateAll, updateAll_eq hnumbered hforest.linked]
    · intro companyId hids
      obtain ⟨list, ⟨n, hn⟩, hsame⟩ := returns_findTree (fun _ => none) "组织架构"
        (fun e : PositionEntity => decide (e.companyId = companyId)) (fun _ _ => rfl)
        hforest hnumbered hnodup (by simpa using hids)
      exact ⟨list, n, hn, hsame⟩
  · intro t nodes trees hforest hnumbered hnodup
    refine ⟨_, ?_, rewritten_relinkAll hforest hnodup, ?_⟩
    · rw [CompanyServiceImpl.updateAll, updateAll_eq hnumbered hforest.linked]
    · intro accessCard hids
      obtain ⟨list, ⟨n, hn⟩, hsame⟩ := returns_findTree some "公司架构"
        (fun e : CompanyEntity => decide (e.clientId = User.checkClientId accessCard))
        (fun _ _ => rfl) hforest hnumbered hnodup (by simpa using hids)
      exact ⟨list, n, hn, hsame⟩

/-- A position of a company, another one below it, and one of another company below that. -/
def three : Table PositionEntity :=
  Table.empty.insertAll [⟨"a", some 0, 1⟩, ⟨"b", some 1, 1⟩, ⟨"c", some 2, 2⟩]

theorem rows_three : three.rows =
    [(1, ⟨"a", some 0, 1⟩), (2, ⟨"b", some 1, 1⟩), (3, ⟨"c", some 2, 2⟩)] := rfl

theorem isForest_three : IsForest three := by
  have h1 : Reaches (above three) 1 0 := .head (by decide) (.refl 0)
  have h2 : Reaches (above three) 2 0 := .head (by decide) h1
  refine ⟨List.forall_iff_forall_mem.mp (by decide), rfl, ?_⟩
  rw [rows_three]
  simp only [List.forall_mem_cons]
  exact ⟨h1, h2, .head (by decide) h2, fun p hp => absurd hp List.not_mem_nil⟩

def single : Table CompanyEntity := Table.empty.insert ⟨"d", some 0, "vea-admin"⟩

theorem isForest_single : IsForest single := by
  refine ⟨List.forall_iff_forall_mem.mp (by decide), rfl, ?_⟩
  intro p hp
  cases List.mem_singleton.mp hp
  exact .head (by decide) (.refl 0)

/-- The two positions of a company change places, and a company stays where it is. -/
theorem updateAll_rewrites_swap :
    (∃ t', PositionServiceImpl.updateAll three
        [.node { id := some "2" } [.node { id := some "01" } []]] = (t', .ok true) ∧
      Rewritten three t' [.node 2 [.node 1 []]] ∧
      Shows (fun depth => PositionServiceImpl.findTree t' depth 1) "组织架构"
        [.node 2 [.node 1 []]]) ∧
    ∃ t', CompanyServiceImpl.updateAll single [.node { id := some "1" } []] = (t', .ok true) ∧
      Rewritten single t' [.node 1 []] ∧
      Shows (fun depth => CompanyServiceImpl.findTree t' depth {}) "公司架构" [.node 1 []] := by
  have hone : Lib.Decimal.parseLong (some "1") = some 1 := by decide
  have hzeroOne : Lib.Decimal.parseLong (some "01") = some 1 := by decide
  have htwo : Lib.Decimal.parseLong (some "2") = some 2 := by decide
  obtain ⟨t, ht, hrewritten, hshows⟩ := updateAll_rewrites.1 three
    [.node { id := some "2" } [.node { id := some "01" } []]] [.node 2 [.node 1 []]]
    isForest_three (by simp [Numbered, numericIds, map, hzeroOne, htwo]) (by decide)
  obtain ⟨t', ht', hrewritten', hshows'⟩ := updateAll_rewrites.2 single
    [.node { id := some "1" } []] [.node 1 []]
    isForest_single (by simp [Numbered, numericIds, map, hone]) (by decide)
  refine ⟨⟨t, ht, hrewritten, hshows 1 fun id => ?_⟩, t', ht', hrewritten', hshows' {} fun id => ?_⟩
  · have hvalues : valuesAll [RoseTree.node 2 [.node 1 []]] = ([2, 1] : List Int) := rfl
    rw [hvalues, rows_three]
    constructor
    · intro hid
      rcases List.mem_cons.mp hid with rfl | hid
      · exact ⟨_, .tail _ (.head _), rfl⟩
      · cases List.mem_singleton.mp hid
        exact ⟨_, .head _, rfl⟩
    · intro hid
      obtain ⟨e, he, hcompany⟩ := hid
      rcases List.mem_cons.mp he with heq | he
      · cases heq
        exact .tail _ (.head _)
      · rcases List.mem_cons.mp he with heq | he
        · cases heq
          exact .head _
        · cases List.mem_singleton.mp he
          cases hcompany
  · constructor
    · intro hid
      cases List.mem_singleton.mp hid
      exact ⟨_, .head _, rfl⟩
    · intro hid
      obtain ⟨e, he, -⟩ := hid
      cases List.mem_singleton.mp he
      exact .head _

end BigPlan.Auth
