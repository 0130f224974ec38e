import Mathlib.Data.Finset.Card
import Mathlib.Data.List.Forall2
import Mathlib.Logic.Relation

/-!
# Links upward, and trees

A partial function that leads from a node to the one above it. What chains of such links do
when some links are cut or rewritten, and a rank for every acyclic relation on a finite list.
Trees with ordered children, compared up to the order of siblings.
-/
namespace BigPlan.Lib.Forest

variable {α β : Type*}

/-! ## Chains -/

/-- The second node is on the chain of links that starts at the first one. -/
def Reaches (above : α → Option α) : α → α → Prop :=
  Relation.ReflTransGen fun x y => above x = some y

variable {above above' : α → Option α} {x y z : α}

theorem Reaches.refl (x : α) : Reaches above x x := Relation.ReflTransGen.refl

theorem Reaches.head (hx : above x = some y) (h : Reaches above y z) : Reaches above x z :=
  Relation.ReflTransGen.head hx h

theorem Reaches.trans (h : Reaches above x y) (h' : Reaches above y z) : Reaches above x z :=
  Relation.ReflTransGen.trans h h'

/-- A chain is empty, or it starts with the link of its first node. -/
theorem reaches_iff : Reaches above x z ↔ x = z ∨ ∃ y, above x = some y ∧ Reaches above y z :=
  Relation.ReflTransGen.cases_head_iff

theorem Reaches.of_ne (h : Reaches above x z) (hne : x ≠ z) :
    ∃ y, above x = some y ∧ Reaches above y z :=
  (reaches_iff.mp h).resolve_left hne

/-- A node without a link reaches itself only. -/
theorem Reaches.eq_of_none (h : Reaches above x z) (hx : above x = none) : x = z := by
  by_contra hne
  obtain ⟨y, hy, -⟩ := h.of_ne hne
  rw [hx] at hy
  cases hy

theorem Reaches.mono (hsub : ∀ x y, above x = some y → above' x = some y)
    (h : Reaches above x z) : Reaches above' x z :=
  Relation.ReflTransGen.mono (fun a b => hsub a b) x z h

/-- A chain to a node goes on in a part of the links if the part has the links of its own nodes
and every node that stands above one of them on a chain to the target. -/
theorem Reaches.restrict {S : Set α} (hsame : ∀ x ∈ S, above' x = above x)
    (hclosed : ∀ x ∈ S, ∀ y, above x = some y → y ≠ z → Reaches above y z → y ∈ S)
    (h : Reaches above x z) (hx : x ≠ z → x ∈ S) : Reaches above' x z := by
  induction h using Relation.ReflTransGen.head_induction_on with
  | refl => exact .refl z
  | head hlink hrest ih =>
    rename_i a c
    by_cases hne : a = z
    · rw [hne]
      exact .refl z
    · have ha := hx hne
      exact .head ((hsame a ha).trans hlink) (ih fun hc => hclosed a ha c hlink hc hrest)

/-- When the link of a node is cut, what reached the node reaches one of those below it. -/
theorem reaches_iff_of_cut (hcut : ∀ x, x ≠ z → above' x = above x) (hnone : above' z = none)
    (hne : x ≠ z) : Reaches above x z ↔ ∃ c, c ≠ z ∧ above c = some z ∧ Reaches above' x c := by
  constructor
  · intro h
    induction h using Relation.ReflTransGen.head_induction_on with
    | refl => exact absurd rfl hne
    | head hlink hrest ih =>
      rename_i a c
      by_cases hc : c = z
      · rw [hc] at hlink
        exact ⟨a, hne, hlink, .refl a⟩
      · obtain ⟨b, hb, hbz, hreach⟩ := ih hc
        exact ⟨b, hb, hbz, .head ((hcut a hne).trans hlink) hreach⟩
  · intro h
    obtain ⟨c, -, hc, hreach⟩ := h
    refine (hreach.mono ?_).trans (.head hc (.refl z))
    intro a b hab
    by_cases ha : a = z
    · rw [ha, hnone] at hab
      cases hab
    · rwa [hcut a ha] at hab

/-- Links are rewritten on a set of nodes all of which reach the root afterwards: then every
node that reached the root still does. -/
theorem Reaches.rewrite {S : Set α} (hrest : ∀ x, x ∉ S → above' x = above x)
    (hS : ∀ x ∈ S, Reaches above' x z) (h : Reaches above x z) : Reaches above' x z := by
  induction h using Relation.ReflTransGen.head_induction_on with
  | refl => exact .refl z
  | head hlink hreach ih =>
    rename_i a c
    by_cases ha : a ∈ S
    · exact hS a ha
    · exact .head ((hrest a ha).trans hlink) ih

/-- A node that reaches the end of a chain is on no cycle. -/
theorem Reaches.not_cycle (h : Reaches above x z) (hz : above z = none) :
    ¬ Relation.TransGen (fun x y => above x = some y) x x := by
  induction h using Relation.ReflTransGen.head_induction_on with
  | refl =>
    intro hcycle
    obtain ⟨y, hy, -⟩ := Relation.TransGen.head'_iff.mp hcycle
    rw [hz] at hy
    cases hy
  | head hlink hrest ih =>
    intro hcycle
    obtain ⟨y, hy, hback⟩ := Relation.TransGen.head'_iff.mp hcycle
    rw [hlink] at hy
    cases hy
    exact ih (Relation.TransGen.tail' hback hlink)

/-! ## Ranks -/

open Classical in
/-- Along an acyclic relation that starts at the elements of a list only, a number that is
bounded by the length of the list goes down. -/
theorem exists_rank (r : α → α → Prop) (l : List α) (hl : ∀ a b, r a b → a ∈ l)
    (hacyclic : ∀ a, ¬ Relation.TransGen r a a) :
    ∃ rank : α → ℕ, (∀ a b, r a b → rank b < rank a) ∧ ∀ a, rank a ≤ l.length := by
  refine ⟨fun a => (l.toFinset.filter (Relation.ReflTransGen r a)).card, ?_, ?_⟩
  · intro a b hab
    apply Finset.card_lt_card
    refine Finset.ssubset_iff_subset_ne.mpr ⟨?_, ?_⟩
    · intro x hx
      obtain ⟨hmem, hreach⟩ := Finset.mem_filter.mp hx
      exact Finset.mem_filter.mpr ⟨hmem, .head hab hreach⟩
    · intro heq
      have ha : a ∈ l.toFinset.filter (Relation.ReflTransGen r a) :=
        Finset.mem_filter.mpr ⟨List.mem_toFinset.mpr (hl a b hab), .refl⟩
      rw [← heq] at ha
      exact hacyclic a (Relation.TransGen.head' hab (Finset.mem_filter.mp ha).2)
  · intro a
    exact (Finset.card_filter_le _ _).trans (List.toFinset_card_le l)

/-! ## Whole chains -/

section Chains

variable {r r' : α → α → Prop}

/-- The list goes from the node along the relation to a node from which it leads nowhere. -/
inductive Ascends (r : α → α → Prop) : α → List α → Prop
  | last {x : α} (hx : ∀ y, ¬ r x y) : Ascends r x [x]
  | step {x y : α} {l : List α} (hx : r x y) (h : Ascends r y l) : Ascends r x (x :: l)

namespace Ascends

variable {l l' : List α}

theorem unique (hr : Relator.RightUnique r) (h : Ascends r x l) (h' : Ascends r x l') :
    l = l' := by
  induction h generalizing l' with
  | last hx =>
    cases h' with
    | last hx' => rfl
    | step hx' h' => exact absurd hx' (hx _)
  | step hx h ih =>
    cases h' with
    | last hx' => exact absurd hx (hx' _)
    | step hx' h' =>
      cases hr hx hx'
      rw [ih h']

theorem reaches_of_mem (h : Ascends r x l) (hy : y ∈ l) : Relation.ReflTransGen r x y := by
  induction h with
  | last hx =>
    rw [List.mem_singleton.mp hy]
  | step hx h ih =>
    rcases List.mem_cons.mp hy with rfl | hy
    · exact .refl
    · exact .head hx (ih hy)

/-- Without cycles, a chain has no node twice. -/
theorem nodup (hacyclic : ∀ x, ¬ Relation.TransGen r x x) (h : Ascends r x l) : l.Nodup := by
  induction h with
  | last hx => exact List.nodup_singleton _
  | step hx h ih =>
    refine List.nodup_cons.mpr ⟨fun hmem => ?_, ih⟩
    exact hacyclic _ (Relation.TransGen.head' hx (h.reaches_of_mem hmem))

theorem head_eq {z : α} (h : Ascends r x (z :: l)) : z = x := by
  cases h <;> rfl

/-- A chain of one relation is a chain of another if they agree at every node of it. -/
theorem congr_iff (hr : Relator.RightUnique r) (hr' : Relator.RightUnique r')
    (h : Ascends r x l) : Ascends r' x l ↔ ∀ y ∈ l, ∀ z, r' y z ↔ r y z := by
  induction h with
  | @last x hx =>
    rw [List.forall_mem_singleton]
    constructor
    · intro h' z
      cases h' with
      | last hx' => exact iff_of_false (hx' z) (hx z)
      | step hx' h' => cases h'
    · exact fun hsame => .last fun y hy => hx y ((hsame y).mp hy)
  | @step x y l hx h ih =>
    rw [List.forall_mem_cons, ← ih]
    constructor
    · intro h'
      cases h' with
      | last hx' => cases h
      | @step _ y' _ hx' h' =>
        have hy : y' = y := by
          cases h <;> exact h'.head_eq.symm
        subst hy
        refine ⟨fun z => ⟨fun hz => ?_, fun hz => ?_⟩, h'⟩
        · exact hr' hx' hz ▸ hx
        · exact hr hx hz ▸ hx'
    · exact fun hboth => .step ((hboth.1 y).mpr hx) hboth.2

end Ascends

/-- Without cycles, a chain from a node comes to an end. -/
theorem exists_ascends {l : List α} (hl : ∀ x y, r x y → x ∈ l)
    (hacyclic : ∀ x, ¬ Relation.TransGen r x x) (x : α) : ∃ chain, Ascends r x chain := by
  obtain ⟨rank, hrank, -⟩ := exists_rank r l hl hacyclic
  induction hn : rank x using Nat.strong_induction_on generalizing x with
  | h n ih =>
    by_cases hx : ∃ y, r x y
    · obtain ⟨y, hy⟩ := hx
      obtain ⟨chain, hchain⟩ := ih (rank y) (hn ▸ hrank x y hy) y rfl
      exact ⟨x :: chain, .step hy hchain⟩
    · exact ⟨[x], .last fun y hy => hx ⟨y, hy⟩⟩

end Chains

/-! ## Trees -/

inductive RoseTree (α : Type*) where
  | node (value : α) (children : List (RoseTree α))

namespace RoseTree

def value : RoseTree α → α
  | node a _ => a

mutual

def map (f : α → β) : RoseTree α → RoseTree β
  | node a children => node (f a) (mapAll f children)

def mapAll (f : α → β) : List (RoseTree α) → List (RoseTree β)
  | [] => []
  | t :: ts => t.map f :: mapAll f ts

end

mutual

/-- The values in the tree, each before those below it. -/
def values : RoseTree α → List α
  | node a children => a :: valuesAll children

def valuesAll : List (RoseTree α) → List α
  | [] => []
  | t :: ts => t.values ++ valuesAll ts

end

mutual

/-- Each node with the one above it, where `p` is above the root; a node outside of `S` is left
out with all that is below it. -/
def links (S : α → Bool) (p : α) : RoseTree α → List (α × α)
  | node a children => if S a then (a, p) :: linksAll S a children else []

def linksAll (S : α → Bool) (p : α) : List (RoseTree α) → List (α × α)
  | [] => []
  | t :: ts => t.links S p ++ linksAll S p ts

end

/-- In a forest below `p`, the node `x` stands right below `q`, and all nodes that are above `x`
in the forest are in `S`. -/
inductive Hangs (S : α → Bool) : α → List (RoseTree α) → α → α → Prop
  | root {p x : α} {children ts : List (RoseTree α)} (h : node x children ∈ ts) : Hangs S p ts x p
  | under {p a x q : α} {children ts : List (RoseTree α)} (h : node a children ∈ ts)
      (ha : S a = true) (hx : Hangs S a children x q) : Hangs S p ts x q

/-- Forests that differ in the order of siblings only. -/
inductive SameForest : List (RoseTree α) → List (RoseTree α) → Prop
  | nil : SameForest [] []
  | cons {a : α} {children children' ts ts' : List (RoseTree α)}
      (hchildren : SameForest children children') (hts : SameForest ts ts') :
      SameForest (node a children :: ts) (node a children' :: ts')
  | swap (t u : RoseTree α) (ts : List (RoseTree α)) : SameForest (t :: u :: ts) (u :: t :: ts)
  | trans {ts us vs : List (RoseTree α)} (h : SameForest ts us) (h' : SameForest us vs) :
      SameForest ts vs

/-- A map from nodes to the nodes below them lists the children of every node of the tree. -/
inductive Lists (kids : α → List α) : RoseTree α → Prop
  | node {a : α} {children : List (RoseTree α)} (h : (kids a).Perm (children.map value))
      (hchildren : ∀ t ∈ children, Lists kids t) : Lists kids (.node a children)

variable {S : α → Bool} {p q a : α} {ts us children : List (RoseTree α)}

/-- Forests are built from the children of a first root and the trees after it. -/
theorem forest_induction {P : List (RoseTree α) → Prop} (nil : P [])
    (cons : ∀ a children ts, P children → P ts → P (.node a children :: ts)) : ∀ ts, P ts
  | [] => nil
  | .node a children :: ts =>
    cons a children ts (forest_induction nil cons children) (forest_induction nil cons ts)

@[simp] theorem mapAll_eq_map (f : α → β) : mapAll f ts = ts.map (map f) := by
  induction ts with
  | nil => rfl
  | cons t ts ih => rw [mapAll, ih, List.map_cons]

theorem valuesAll_cons : valuesAll (.node a children :: ts) =
    a :: (valuesAll children ++ valuesAll ts) := rfl

theorem linksAll_cons (ha : S a = true) : linksAll S p (.node a children :: ts) =
    (a, p) :: (linksAll S a children ++ linksAll S p ts) := by
  rw [linksAll, links, if_pos ha]
  rfl

theorem linksAll_cons_of_not (ha : ¬ S a = true) :
    linksAll S p (.node a children :: ts) = linksAll S p ts := by
  rw [linksAll, links, if_neg ha]
  rfl

/-- The nodes that have links are some of the nodes, in the same order. -/
theorem linksAll_sublist : ((linksAll S p ts).map Prod.fst).Sublist (valuesAll ts) := by
  induction ts using forest_induction generalizing p with
  | nil => exact .slnil
  | cons a children ts ihc ihs =>
    by_cases ha : S a = true
    · rw [linksAll_cons ha, valuesAll_cons, List.map_cons, List.map_append]
      exact (ihc.append ihs).cons_cons a
    · rw [linksAll_cons_of_not ha, valuesAll_cons]
      exact (ihs.trans (List.sublist_append_right _ _)).cons a

theorem map_fst_linksAll (hS : ∀ x ∈ valuesAll ts, S x = true) :
    (linksAll S p ts).map Prod.fst = valuesAll ts := by
  induction ts using forest_induction generalizing p with
  | nil => rfl
  | cons a children ts ihc ihs =>
    rw [valuesAll_cons] at hS
    rw [linksAll_cons (hS a List.mem_cons_self), valuesAll_cons, List.map_cons, List.map_append,
      ihc fun x hx => hS x (List.mem_cons_of_mem _ (List.mem_append_left _ hx)),
      ihs fun x hx => hS x (List.mem_cons_of_mem _ (List.mem_append_right _ hx))]

theorem of_mem_linksAll {x : α} (h : (x, q) ∈ linksAll S p ts) : S x = true := by
  induction ts using forest_induction generalizing p with
  | nil => cases h
  | cons a children ts ihc ihs =>
    by_cases ha : S a = true
    · rw [linksAll_cons ha] at h
      rcases List.mem_cons.mp h with heq | h
      · cases heq
        exact ha
      · rcases List.mem_append.mp h with h | h
        · exact ihc h
        · exact ihs h
    · rw [linksAll_cons_of_not ha] at h
      exact ihs h

/-- The links of a tree of the forest are links of the forest. -/
theorem mem_linksAll_of_mem {x : α} (hmem : .node a children ∈ ts) (ha : S a = true)
    (hx : (x, q) ∈ (a, p) :: linksAll S a children) : (x, q) ∈ linksAll S p ts := by
  induction ts with
  | nil => cases hmem
  | cons t ts ih =>
    rcases List.mem_cons.mp hmem with rfl | hmem
    · rw [linksAll_cons ha, ← List.cons_append]
      exact List.mem_append_left _ hx
    · exact List.mem_append_right _ (ih hmem)

/-- A node of `S` has a link to the node it hangs from. -/
theorem mem_linksAll_of_hangs {x : α} (h : Hangs S p ts x q) (hx : S x = true) :
    (x, q) ∈ linksAll S p ts := by
  induction h with
  | root hmem => exact mem_linksAll_of_mem hmem hx List.mem_cons_self
  | under hmem ha hx' ih => exact mem_linksAll_of_mem hmem ha (List.mem_cons_of_mem _ (ih hx))

theorem snd_of_mem_linksAll {x : α} (h : (x, q) ∈ linksAll S p ts) :
    q = p ∨ q ∈ valuesAll ts := by
  induction ts using forest_induction generalizing p with
  | nil => cases h
  | cons a children ts ihc ihs =>
    rw [valuesAll_cons]
    by_cases ha : S a = true
    · rw [linksAll_cons ha] at h
      rcases List.mem_cons.mp h with heq | h
      · cases heq
        exact .inl rfl
      · rcases List.mem_append.mp h with h | h
        · refine .inr ?_
          rcases ihc h with rfl | hq
          · exact List.mem_cons_self
          · exact List.mem_cons_of_mem _ (List.mem_append_left _ hq)
        · rcases ihs h with rfl | hq
          · exact .inl rfl
          · exact .inr (List.mem_cons_of_mem _ (List.mem_append_right _ hq))
    · rw [linksAll_cons_of_not ha] at h
      rcases ihs h with rfl | hq
      · exact .inl rfl
      · exact .inr (List.mem_cons_of_mem _ (List.mem_append_right _ hq))

theorem notMem_linksAll {x : α} (hp : q ≠ p) (hq : q ∉ valuesAll ts) :
    (x, q) ∉ linksAll S p ts := fun h => (snd_of_mem_linksAll h).elim hp hq

theorem roots_sublist : (ts.map value).Sublist (valuesAll ts) := by
  induction ts using forest_induction with
  | nil => exact .slnil
  | cons a children ts ihc ihs =>
    rw [valuesAll_cons, List.map_cons]
    exact (ihs.trans (List.sublist_append_right _ _)).cons_cons a

/-- Nodes whose links are those of a forest reach what the node above the forest reaches. -/
theorem reaches_of_linksAll {above : α → Option α} {x z : α}
    (hlinks : ∀ x q, (x, q) ∈ linksAll S p ts → above x = some q) (hp : Reaches above p z)
    (hx : (x, q) ∈ linksAll S p ts) : Reaches above x z := by
  induction ts using forest_induction generalizing p with
  | nil => cases hx
  | cons a children ts ihc ihs =>
    by_cases ha : S a = true
    · rw [linksAll_cons ha] at hx hlinks
      have haz : Reaches above a z := .head (hlinks a p List.mem_cons_self) hp
      rcases List.mem_cons.mp hx with heq | hx
      · cases heq
        exact haz
      · rcases List.mem_append.mp hx with hx | hx
        · exact ihc (fun x q h => hlinks x q (List.mem_cons_of_mem _ (List.mem_append_left _ h)))
            haz hx
        · exact ihs (fun x q h => hlinks x q (List.mem_cons_of_mem _ (List.mem_append_right _ h)))
            hp hx
    · rw [linksAll_cons_of_not ha] at hx hlinks
      exact ihs hlinks hp hx

/-- Right below the top of a forest are its roots. -/
theorem mem_linksAll_top {x : α} (hS : ∀ a ∈ valuesAll ts, S a = true) (hp : p ∉ valuesAll ts) :
    (x, p) ∈ linksAll S p ts ↔ x ∈ ts.map value := by
  induction ts with
  | nil => simp [linksAll]
  | cons t ts ih =>
    obtain ⟨a, children⟩ := t
    rw [valuesAll_cons] at hS hp
    have hpa : p ≠ a := fun h => hp (h ▸ List.mem_cons_self)
    have hpc : p ∉ valuesAll children :=
      fun h => hp (List.mem_cons_of_mem _ (List.mem_append_left _ h))
    have ih := ih (fun b hb => hS b (List.mem_cons_of_mem _ (List.mem_append_right _ hb)))
      (fun h => hp (List.mem_cons_of_mem _ (List.mem_append_right _ h)))
    rw [linksAll_cons (hS a List.mem_cons_self), List.mem_cons, List.mem_append, ih, List.map_cons,
      List.mem_cons, Prod.mk.injEq]
    constructor
    · intro h
      rcases h with ⟨hx, -⟩ | h | h
      · exact .inl hx
      · rcases snd_of_mem_linksAll h with heq | hmem
        · exact absurd heq hpa
        · exact absurd hmem hpc
      · exact .inr h
    · intro h
      rcases h with hx | h
      · exact .inl ⟨hx, rfl⟩
      · exact .inr (.inr h)

/-- Where the nodes right below each node are those that link to it, the forest is what the map
from nodes to those below them lists. -/
theorem lists_of_linksAll {kids : α → List α} (hS : ∀ a ∈ valuesAll ts, S a = true)
    (hp : p ∉ valuesAll ts) (hnodup : (valuesAll ts).Nodup)
    (hkids : ∀ a ∈ valuesAll ts, (kids a).Nodup ∧ ∀ x, x ∈ kids a ↔ (x, a) ∈ linksAll S p ts) :
    ∀ t ∈ ts, Lists kids t := by
  induction ts using forest_induction generalizing p with
  | nil => intro t ht; cases ht
  | cons a children ts ihc ihs =>
    rw [valuesAll_cons] at hS hp hnodup hkids
    obtain ⟨hac, hnodup⟩ := List.nodup_cons.mp hnodup
    obtain ⟨hnodupc, hnodups, hdisjoint⟩ := List.nodup_append.mp hnodup
    obtain ⟨hpa, hp⟩ := not_or.mp (List.mem_cons.not.mp hp)
    rw [linksAll_cons (hS a List.mem_cons_self)] at hkids
    have hSc b (hb : b ∈ valuesAll children) : S b = true :=
      hS b (List.mem_cons_of_mem _ (List.mem_append_left _ hb))
    have hne b (hb : b ∈ a :: (valuesAll children ++ valuesAll ts)) : b ≠ p := by
      rintro rfl
      rcases List.mem_cons.mp hb with rfl | hb
      · exact hpa rfl
      · exact hp hb
    intro t ht
    rcases List.mem_cons.mp ht with rfl | ht
    · -- a link to the root or to a node below it is a link of its tree
      have hin b (hb : b ∈ a :: valuesAll children) (hbs : b ∉ valuesAll ts) x :
          (x, b) ∈ (a, p) :: (linksAll S a children ++ linksAll S p ts) ↔
            (x, b) ∈ linksAll S a children := by
        have hbp : b ≠ p := hne b (List.cons_subset_cons a (List.subset_append_left _ _) hb)
        have hrest := @notMem_linksAll _ S p b ts x hbp hbs
        simp [hbp, hrest]
      have has : a ∉ valuesAll ts := fun h => hac (List.mem_append_right _ h)
      refine .node ?_ (ihc hSc (fun h => hac (List.mem_append_left _ h)) hnodupc ?_)
      · have ha := hkids a List.mem_cons_self
        refine (List.perm_ext_iff_of_nodup ha.1 (hnodupc.sublist roots_sublist)).mpr fun x => ?_
        rw [ha.2, hin a List.mem_cons_self has,
          mem_linksAll_top hSc fun h => hac (List.mem_append_left _ h)]
      · intro b hb
        have hb' := hkids b (List.mem_cons_of_mem _ (List.mem_append_left _ hb))
        have hbs : b ∉ valuesAll ts := fun h => hdisjoint b hb b h rfl
        exact ⟨hb'.1, fun x => (hb'.2 x).trans (hin b (List.mem_cons_of_mem _ hb) hbs x)⟩
    · refine ihs (fun b hb => hS b (List.mem_cons_of_mem _ (List.mem_append_right _ hb)))
        (fun h => hp (List.mem_append_right _ h)) hnodups ?_ t ht
      intro b hb
      have hmem := List.mem_cons_of_mem a (List.mem_append_right (valuesAll children) hb)
      have hbp := hne b hmem
      have hba : b ≠ a := fun h => hac (List.mem_append_right _ (h ▸ hb))
      have hbc : b ∉ valuesAll children := fun h => hdisjoint b h b hb rfl
      refine ⟨(hkids b hmem).1, fun x => ((hkids b hmem).2 x).trans ?_⟩
      have hrest := @notMem_linksAll _ S a b children x hba hbc
      simp [hbp, hrest]

/-! ## Forests up to the order of siblings -/

namespace SameForest

theorem refl (ts : List (RoseTree α)) : SameForest ts ts := by
  induction ts using forest_induction with
  | nil => exact .nil
  | cons a children ts ihc ihs => exact .cons ihc ihs

theorem head (t : RoseTree α) (h : SameForest ts us) : SameForest (t :: ts) (t :: us) := by
  cases t
  exact .cons (refl _) h

theorem append_right (h : SameForest ts us) (vs : List (RoseTree α)) :
    SameForest (ts ++ vs) (us ++ vs) := by
  induction h with
  | nil => exact refl vs
  | cons hchildren hts ihc ihs => exact .cons hchildren ihs
  | swap t u ts => exact .swap t u (ts ++ vs)
  | trans h h' ih ih' => exact ih.trans ih'

theorem of_perm (h : ts.Perm us) : SameForest ts us := by
  induction h with
  | nil => exact .nil
  | cons t h ih => exact ih.head t
  | swap t u ts => exact .swap u t ts
  | trans h h' ih ih' => exact ih.trans ih'

/-- Trees that are the same one by one make the same forest. -/
theorem of_forall₂ (h : List.Forall₂ (fun t u => SameForest [t] [u]) ts us) :
    SameForest ts us := by
  induction h with
  | nil => exact .nil
  | @cons t u ts us htu hrest ih => exact (htu.append_right ts).trans (ih.head u)

end SameForest

end RoseTree

end BigPlan.Lib.Forest
