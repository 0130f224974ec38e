import BigPlan.Algorithm.LinkedList
import Mathlib.Data.List.Perm.Basic

/-!
# Merging two ordered lists

The nodes of two lists are linked anew while both are walked. At each turn the nodes that were
taken are linked up to the last one, which still refers to where it came from. The result is the
merge of the two lists, but a list that is empty makes the result empty.
-/
namespace BigPlan.Algorithm

open Lib Lib.Chain Lib.Recursion Heap

namespace LinkedList

/-! ## `merge` -/

/-- `if (temp != null) temp.setNext(node)`. -/
def linkBehind (heap : Heap) (temp : Option ℕ) (node : ℕ) : Heap :=
  match temp with
  | some t => heap.setNext t (some node)
  | none => heap

/-- The loop of `merge`, which ends with the head of the merged list. -/
def mergeFrom : ℕ → Heap → (head temp selfHead mergedHead : Option ℕ) →
    Except String (Heap × Option ℕ)
  | _, heap, head, _, none, none => .ok (heap, head)
  | 0, _, _, _, _, _ => .error outOfTurns
  | turns + 1, heap, head, temp, none, some merged =>
    let heap := linkBehind heap temp merged
    mergeFrom turns heap head (some merged) none (heap merged).next
  | turns + 1, heap, head, temp, some self, none =>
    let heap := linkBehind heap temp self
    mergeFrom turns heap head (some self) (heap self).next none
  | turns + 1, heap, head, temp, some self, some merged =>
    if (heap self).no ≤ (heap merged).no then
      let head := head.or (some self)
      let heap := linkBehind heap temp self
      mergeFrom turns heap head (some self) (heap self).next (some merged)
    else
      let heap := linkBehind heap temp merged
      let temp := some merged
      mergeFrom turns heap (head.or temp) temp (some self) (heap merged).next

def merge (turns : ℕ) (heap : Heap) (list merged : LinkedList) :
    Except String (Heap × LinkedList) :=
  if merged.head = none ∨ list.head = none then .ok (heap, ⟨none⟩)
  else do
    let (heap, head) ← mergeFrom turns heap none none list.head merged.head
    return (heap, ⟨head⟩)

/-! ## One turn -/

section Turns

variable {heap : Heap} {head temp p q : Option ℕ} {out ls lm : List ℕ} {x : ℕ}

theorem sameEntries_linkBehind (heap : Heap) (temp : Option ℕ) (x : ℕ) :
    SameEntries heap (linkBehind heap temp x) := by
  cases temp with
  | none => exact sameEntries_refl heap
  | some t => exact sameEntries_setNext _ _ _

/-- What is left of both lists, and what was taken from them. The last node that was taken still
refers to what is left of its list. -/
structure Merging (heap : Heap) (head temp : Option ℕ) (out : List ℕ) (p q : Option ℕ)
    (ls lm : List ℕ) : Prop where
  left : Leads heap.next p ls none
  right : Leads heap.next q lm none
  nodup : (out ++ (ls ++ lm)).Nodup
  taken : out = [] ∧ temp = none ∧ head = none ∨
    ∃ xs t, out = xs ++ [t] ∧ temp = some t ∧ Leads heap.next head xs (some t) ∧
      (heap.next t = p ∨ heap.next t = q)

theorem Merging.symm (h : Merging heap head temp out p q ls lm) :
    Merging heap head temp out q p lm ls where
  left := h.right
  right := h.left
  nodup := (List.perm_append_comm.append_left out).nodup_iff.mp h.nodup
  taken := by
    obtain hnone | ⟨xs, t, hout, htemp, hleads, hnext⟩ := h.taken
    · exact Or.inl hnone
    · exact Or.inr ⟨xs, t, hout, htemp, hleads, hnext.symm⟩

/-- Once a node was taken, there is a head. -/
theorem Merging.head_or (h : Merging heap head temp out p q ls lm) (hout : out ≠ [])
    (a : Option ℕ) : head.or a = head := by
  obtain ⟨hnone, -⟩ | ⟨xs, t, -, -, hleads, -⟩ := h.taken
  · exact absurd hnone hout
  · cases xs with
    | nil => rw [leads_nil.mp hleads, Option.some_or]
    | cons y xs => rw [hleads.1, Option.some_or]

/-- The first node that is left of a list is taken. -/
theorem Merging.take (h : Merging heap head temp out p q (x :: ls) lm) :
    Merging (linkBehind heap temp x) (head.or p) p (out ++ [x]) ((linkBehind heap temp x).next x)
      q ls lm := by
  obtain ⟨rfl, hls⟩ := h.left
  have hnodup := h.nodup
  rw [List.cons_append, List.append_cons] at hnodup
  obtain ⟨rfl, rfl, rfl⟩ | ⟨xs, t, rfl, rfl, hleads, -⟩ := h.taken
  · exact ⟨hls, h.right, hnodup, Or.inr ⟨[], x, rfl, rfl, rfl, Or.inl rfl⟩⟩
  · have hhead : head.or (some x) = head := h.head_or (by simp) _
    have hsome := h.nodup
    simp only [List.nodup_append, List.mem_append, List.mem_cons, List.not_mem_nil,
      or_false] at hsome
    obtain ⟨⟨-, -, hxs⟩, -, hrest⟩ := hsome
    have htxs : t ∉ xs := fun hmem => hxs t hmem t rfl rfl
    have hout : ∀ b, b = x ∨ b ∈ ls ∨ b ∈ lm → t ≠ b := by
      intro b hb
      exact hrest t (Or.inr rfl) b (by tauto)
    have htls : t ∉ ls := fun hmem => hout t (Or.inr (Or.inl hmem)) rfl
    have htlm : t ∉ lm := fun hmem => hout t (Or.inr (Or.inr hmem)) rfl
    have hx : (linkBehind heap (some t) x).next x = heap.next x := by
      rw [linkBehind, next_setNext, Function.update_of_ne (hout x (Or.inl rfl)).symm]
    refine ⟨?_, ?_, hnodup, Or.inr ⟨xs ++ [t], x, rfl, rfl, ?_, Or.inl rfl⟩⟩
    · rw [hx, linkBehind, next_setNext, leads_update htls]
      exact hls
    · rw [linkBehind, next_setNext, leads_update htlm]
      exact h.right
    · rw [hhead, linkBehind, next_setNext, leads_append]
      refine ⟨some t, ?_, rfl, ?_⟩
      · rwa [leads_update htxs]
      · exact Function.update_self _ _ _

end Turns

/-! ## The loop -/

section Loop

variable {heap : Heap} {head temp p q : Option ℕ} {out ls lm : List ℕ} {no : ℕ → ℤ}

/-- The nodes of both lists in the order of their numbers, those of the first list in front of
those of the second with the same number. -/
def mergedNodes (no : ℕ → ℤ) (ls lm : List ℕ) : List ℕ :=
  ls.merge lm fun a b => decide (no a ≤ no b)

/-- The loop takes all the nodes that are left. At the start there are some on both sides. -/
theorem mergeFrom_returns (h : Merging heap head temp out p q ls lm)
    (hno : ∀ a, (heap a).no = no a) (hstart : out = [] → ls ≠ [] ∧ lm ≠ []) :
    ∃ heap' head', Returns (fun turns => mergeFrom turns heap head temp p q) (heap', head') ∧
      Leads heap'.next head' (out ++ mergedNodes no ls lm) none ∧ SameEntries heap heap' := by
  induction hn : ls.length + lm.length generalizing heap head temp out p q ls lm with
  | zero =>
    obtain ⟨hls, hlm⟩ : ls = [] ∧ lm = [] := by
      constructor <;> exact List.eq_nil_of_length_eq_zero (by omega)
    subst hls hlm
    have hp : p = none := h.left
    have hq : q = none := h.right
    subst hp hq
    obtain ⟨hnil, -⟩ | ⟨xs, t, rfl, -, hleads, hnext⟩ := h.taken
    · exact absurd rfl (hstart hnil).1
    · refine ⟨heap, head, ?_, ?_, sameEntries_refl heap⟩
      · refine ⟨0, fun turns _ => ?_⟩
        cases turns <;> rfl
      · rw [mergedNodes, List.nil_merge, List.append_nil, leads_append]
        exact ⟨some t, hleads, rfl, hnext.elim id id⟩
  | succ n ih =>
    -- a turn that takes a node, and what is taken later
    have hturn : ∀ {x head₁ p₁ q₁ ls₁ lm₁},
        Merging (linkBehind heap temp x) head₁ (some x) (out ++ [x]) p₁ q₁ ls₁ lm₁ →
        ls₁.length + lm₁.length = n →
        (∀ turns, mergeFrom (turns + 1) heap head temp p q =
          mergeFrom turns (linkBehind heap temp x) head₁ (some x) p₁ q₁) →
        mergedNodes no ls lm = x :: mergedNodes no ls₁ lm₁ →
        ∃ heap' head', Returns (fun turns => mergeFrom turns heap head temp p q) (heap', head') ∧
          Leads heap'.next head' (out ++ mergedNodes no ls lm) none ∧ SameEntries heap heap' := by
      intro x head₁ p₁ q₁ ls₁ lm₁ htake hlength hcode hnodes
      have hlink := sameEntries_linkBehind heap temp x
      obtain ⟨heap', head', hr, hleads, hsame⟩ := ih htake (fun a => (hlink a).1.trans (hno a))
        (fun hnil => by simp at hnil) hlength
      refine ⟨heap', head', ?_, ?_, hlink.trans hsame⟩
      · rw [← returns_succ]
        simp only [hcode]
        exact hr
      · rw [hnodes, List.append_cons]
        exact hleads
    cases ls with
    | nil =>
      have hout : out ≠ [] := fun hnil => (hstart hnil).1 rfl
      obtain rfl : p = none := h.left
      cases lm with
      | nil => simp at hn
      | cons y lm =>
        obtain rfl : q = some y := h.right.1
        have htake := h.symm.take.symm
        rw [h.head_or hout] at htake
        exact hturn htake (by simpa using hn) (fun turns => rfl) (by simp [mergedNodes])
    | cons x ls =>
      obtain rfl : p = some x := h.left.1
      cases lm with
      | nil =>
        have hout : out ≠ [] := fun hnil => (hstart hnil).2 rfl
        obtain rfl : q = none := h.right
        have htake := h.take
        rw [h.head_or hout] at htake
        exact hturn htake (by simpa using hn) (fun turns => rfl) (by simp [mergedNodes])
      | cons y lm =>
        obtain rfl : q = some y := h.right.1
        simp only [List.length_cons] at hn
        by_cases hle : no x ≤ no y
        · refine hturn h.take (by rw [List.length_cons]; omega) (fun turns => ?_)
            (List.cons_merge_cons_pos _ _ _ (decide_eq_true hle))
          simp only [mergeFrom, hno, if_pos hle]
          rfl
        · refine hturn h.symm.take.symm (by rw [List.length_cons]; omega) (fun turns => ?_)
            (List.cons_merge_cons_neg _ _ _ (by rwa [decide_eq_true_iff]))
          simp only [mergeFrom, hno, if_neg hle]
          rfl

end Loop

/-! ## The merged list -/

section Merged

variable {heap : Heap} {ls lm : List ℕ} {no : ℕ → ℤ}

theorem perm_mergedNodes : (mergedNodes no ls lm).Perm (ls ++ lm) :=
  List.merge_perm_append _

theorem ascending_mergedNodes (hls : ls.Pairwise fun a b => no a ≤ no b)
    (hlm : lm.Pairwise fun a b => no a ≤ no b) :
    (mergedNodes no ls lm).Pairwise fun a b => no a ≤ no b := by
  have htrans : ∀ a b c, decide (no a ≤ no b) = true → decide (no b ≤ no c) = true →
      decide (no a ≤ no c) = true := fun a b c hab hbc => by simp at hab hbc ⊢; omega
  have htotal : ∀ a b, (decide (no a ≤ no b) || decide (no b ≤ no a)) = true :=
    fun a b => by simp; omega
  exact (List.pairwise_merge htrans htotal ls lm (hls.imp decide_eq_true)
    (hlm.imp decide_eq_true)).imp of_decide_eq_true

/-- A node of the first list comes in front of the nodes of the second with the same number. -/
theorem pair_sublist_mergedNodes (hls : ls.Pairwise fun a b => no a ≤ no b) {a b : ℕ}
    (ha : a ∈ ls) (hb : b ∈ lm) (hno : no a = no b) : [a, b].Sublist (mergedNodes no ls lm) := by
  induction ls generalizing lm with
  | nil => cases ha
  | cons x ls ih =>
    obtain ⟨hx, hls'⟩ := List.pairwise_cons.mp hls
    induction lm with
    | nil => cases hb
    | cons y lm ihm =>
      by_cases hle : no x ≤ no y
      · have hmerged : mergedNodes no (x :: ls) (y :: lm) = x :: mergedNodes no ls (y :: lm) :=
          List.cons_merge_cons_pos _ _ _ (decide_eq_true hle)
        rw [hmerged]
        obtain rfl | ha := List.mem_cons.mp ha
        · have hmem : b ∈ mergedNodes no ls (y :: lm) := List.mem_merge.mpr (Or.inr hb)
          exact (List.singleton_sublist.mpr hmem).cons_cons a
        · exact (ih hls' ha hb).cons x
      · have hmerged : mergedNodes no (x :: ls) (y :: lm) = y :: mergedNodes no (x :: ls) lm :=
          List.cons_merge_cons_neg _ _ _ (by rwa [decide_eq_true_iff])
        rw [hmerged]
        obtain rfl | hb := List.mem_cons.mp hb
        · have hxa : no x ≤ no a := by
            obtain rfl | ha := List.mem_cons.mp ha
            · exact Int.le_refl _
            · exact hx a ha
          omega
        · exact (ihm hb).cons y

variable {list merged : LinkedList}

/-- Two lists in the order of their numbers, without a node in common. -/
structure Sorted (heap : Heap) (list merged : LinkedList) (ls lm : List ℕ) : Prop where
  self : Leads heap.next list.head ls none
  other : Leads heap.next merged.head lm none
  disjoint : ls.Disjoint lm
  self_ascending : ls.Pairwise fun a b => (heap a).no ≤ (heap b).no
  other_ascending : lm.Pairwise fun a b => (heap a).no ≤ (heap b).no

/-- The merge ends, and its result goes over the nodes of both lists, over each of them once, in
the order of the numbers, and over those of the first list first where numbers are equal. -/
def IsMerged (heap : Heap) (list merged : LinkedList) (ls lm : List ℕ) : Prop :=
  ∃ heap' result nodes, Returns (fun turns => merge turns heap list merged) (heap', result) ∧
    Leads heap'.next result.head nodes none ∧ nodes.Perm (ls ++ lm) ∧ nodes.Nodup ∧
    (nodes.Pairwise fun a b => (heap' a).no ≤ (heap' b).no) ∧
    (∀ a ∈ ls, ∀ b ∈ lm, (heap a).no = (heap b).no → [a, b].Sublist nodes) ∧
    SameEntries heap heap'

theorem isMerged_of_nil (hself : list.head = none) (hother : merged.head = none) :
    IsMerged heap list merged [] [] := by
  refine ⟨heap, ⟨none⟩, [], ?_, rfl, List.Perm.refl _, List.nodup_nil, List.Pairwise.nil,
    fun a ha => absurd ha List.not_mem_nil, sameEntries_refl heap⟩
  simp only [merge, hself, hother, or_self, if_true]
  exact returns_pure _

theorem isMerged_of_ne_nil (h : Sorted heap list merged ls lm) (hls : ls ≠ []) (hlm : lm ≠ []) :
    IsMerged heap list merged ls lm := by
  have hnodup : (ls ++ lm).Nodup := h.self.nodup.append h.other.nodup h.disjoint
  have hstart : Merging heap none none [] list.head merged.head ls lm :=
    ⟨h.self, h.other, hnodup, Or.inl ⟨rfl, rfl, rfl⟩⟩
  obtain ⟨heap', head', hr, hleads, hsame⟩ :=
    mergeFrom_returns hstart (fun _ => rfl) fun _ => ⟨hls, hlm⟩
  have hsome : ¬ (merged.head = none ∨ list.head = none) := by
    rw [h.self.head_eq, h.other.head_eq, List.head?_eq_none_iff, List.head?_eq_none_iff]
    exact not_or.mpr ⟨hlm, hls⟩
  refine ⟨heap', ⟨head'⟩, _, ?_, hleads, perm_mergedNodes, hleads.nodup, ?_, ?_, hsame⟩
  · simp only [merge, if_neg hsome]
    exact hr.bind (returns_pure _)
  · have hascending := ascending_mergedNodes h.self_ascending h.other_ascending
    exact hascending.imp fun hle => by rwa [(hsame _).1, (hsame _).1]
  · exact fun a ha b hb hno => pair_sublist_mergedNodes h.self_ascending ha hb hno

/-- Without nodes on one side the result is empty. -/
theorem nil_of_isMerged (h : Sorted heap list merged ls lm) (hmerged : IsMerged heap list merged ls lm)
    (hnil : ls = [] ∨ lm = []) : ls ++ lm = [] := by
  obtain ⟨heap', result, nodes, hr, hleads, hperm, -⟩ := hmerged
  have hnone : merged.head = none ∨ list.head = none := by
    rw [h.self.head_eq, h.other.head_eq, List.head?_eq_none_iff, List.head?_eq_none_iff]
    exact hnil.symm
  have hempty : Returns (fun turns => merge turns heap list merged) (heap, ⟨none⟩) := by
    simp only [merge, if_pos hnone]
    exact returns_pure _
  have heq := hr.unique hempty
  cases heq
  have hnodes : nodes = [] := hleads.unique rfl
  rw [hnodes] at hperm
  exact List.nil_perm.mp hperm

/-- Two lists are merged if and only if both are empty or both are not. -/
theorem isMerged_iff (h : Sorted heap list merged ls lm) :
    IsMerged heap list merged ls lm ↔ (ls = [] ↔ lm = []) := by
  constructor
  · intro hmerged
    constructor
    · intro hls
      exact (List.append_eq_nil_iff.mp (nil_of_isMerged h hmerged (Or.inl hls))).2
    · intro hlm
      exact (List.append_eq_nil_iff.mp (nil_of_isMerged h hmerged (Or.inr hlm))).1
  · intro hiff
    by_cases hls : ls = []
    · have hlm := hiff.mp hls
      subst hls hlm
      exact isMerged_of_nil h.self h.other
    · exact isMerged_of_ne_nil h hls fun hlm => hls (hiff.mpr hlm)

/-- The numbers 1 and 3 in one list, and 1 and 2 in another. -/
def twoLists : Heap := fun a =>
  match a with
  | 0 => ⟨1, none, none, some 1, none⟩
  | 1 => ⟨3, none, none, none, none⟩
  | 2 => ⟨1, none, none, some 3, none⟩
  | _ => ⟨2, none, none, none, none⟩

theorem isMerged_iff_two :
    Sorted twoLists ⟨some 0⟩ ⟨some 2⟩ [0, 1] [2, 3] ∧
      IsMerged twoLists ⟨some 0⟩ ⟨some 2⟩ [0, 1] [2, 3] := by
  have h : Sorted twoLists ⟨some 0⟩ ⟨some 2⟩ [0, 1] [2, 3] :=
    ⟨⟨rfl, rfl, rfl⟩, ⟨rfl, rfl, rfl⟩, by simp, by decide, by decide⟩
  exact ⟨h, (isMerged_iff h).mpr (by decide)⟩

/-- The same first list, and an empty one. -/
theorem not_isMerged : ¬ ∀ heap list merged ls lm,
    Sorted heap list merged ls lm → IsMerged heap list merged ls lm := by
  intro h
  have hsorted : Sorted twoLists ⟨some 0⟩ ⟨none⟩ [0, 1] [] :=
    ⟨⟨rfl, rfl, rfl⟩, rfl, List.disjoint_nil_right _, by decide, List.Pairwise.nil⟩
  have hnil := nil_of_isMerged hsorted (h _ _ _ _ _ hsorted) (Or.inr rfl)
  cases hnil

end Merged

end LinkedList

end BigPlan.Algorithm
