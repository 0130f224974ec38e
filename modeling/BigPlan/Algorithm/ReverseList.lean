import BigPlan.Algorithm.LinkedList
import BigPlan.Lib.Java

/-!
# The linked list from its end

`reverse` links the nodes the other way round, in place, and `reverseList` prints them from a stack.
`findByReciprocal` counts the nodes first, and the number of steps to take is an int: a large negative
index takes none.
-/
namespace BigPlan.Algorithm

open Lib Lib.Chain Lib.Recursion Heap

/-- Strings may be `null`. -/
def Node.toString (n : Node) : String :=
  "Node\x7bno=" ++ ToString.toString n.no ++ ", name='" ++ n.name.getD "null" ++ "', nickName='" ++
    n.nickName.getD "null" ++ "'\x7d"

namespace LinkedList

/-! ## The methods -/

/-- `while (next != null)`, with what is done with each node. -/
def walk {β : Type} (f : β → ℕ → β) : ℕ → Heap → β → Option ℕ → Except String β
  | _, _, b, none => .ok b
  | 0, _, _, some _ => .error outOfTurns
  | turns + 1, heap, b, some next => walk f turns heap (f b next) (heap next).next

/-- What is printed. -/
def list (turns : ℕ) (heap : Heap) (list : LinkedList) : Except String (List String) :=
  walk (fun printed temp => printed ++ [(heap temp).toString]) turns heap [] list.head

def size (turns : ℕ) (heap : Heap) (list : LinkedList) : Except String ℤ :=
  walk (fun size _ => Java.wrap (size + 1)) turns heap 0 list.head

def nullPointer : String := "NullPointerException"

/-- `for (int i = 0; i < target; i++) { result = result.getNext(); }`. -/
def advance (heap : Heap) : ℕ → Option ℕ → Except String (Option ℕ)
  | 0, result => .ok result
  | _ + 1, none => .error nullPointer
  | target + 1, some result => advance heap target (heap result).next

def findByReciprocal (turns : ℕ) (heap : Heap) (list : LinkedList) (index : ℤ) :
    Except String (Option ℕ) := do
  let size ← list.size turns heap
  if index > size then return none
  else
    let target := Java.wrap (size - index)
    advance heap target.toNat list.head

/-- The loop of `reverse`. -/
def reverseFrom : ℕ → Heap → Option ℕ → Option ℕ → Except String (Heap × Option ℕ)
  | _, heap, newHead, none => .ok (heap, newHead)
  | 0, _, _, some _ => .error outOfTurns
  | turns + 1, heap, newHead, some temp =>
    reverseFrom turns (heap.setNext temp newHead) (some temp) (heap temp).next

def reverse (turns : ℕ) (heap : Heap) (list : LinkedList) : Except String (Heap × LinkedList) := do
  let (heap, newHead) ← reverseFrom turns heap none list.head
  return (heap, ⟨newHead⟩)

/-- What is printed, from the top of the stack. -/
def reverseList (turns : ℕ) (heap : Heap) (list : LinkedList) : Except String (List String) := do
  let stack ← walk (fun stack next => next :: stack) turns heap [] list.head
  return stack.map fun node => (heap node).toString

/-! ## Walking along the list -/

section Walk

variable {heap : Heap} {p : Option ℕ} {nodes : List ℕ} {l : LinkedList}

theorem walk_returns {β : Type} (f : β → ℕ → β) (h : Leads heap.next p nodes none) (b : β) :
    Returns (fun turns => walk f turns heap b p) (nodes.foldl f b) := by
  induction nodes generalizing p b with
  | nil =>
    obtain rfl : p = none := h
    refine ⟨0, fun turns _ => ?_⟩
    cases turns <;> rfl
  | cons a nodes ih =>
    obtain ⟨rfl, hrest⟩ := h
    rw [← returns_succ]
    exact ih hrest (f b a)

theorem list_returns (h : Leads heap.next l.head nodes none) :
    Returns (fun turns => l.list turns heap) (nodes.map fun a => (heap a).toString) := by
  have hwalk := walk_returns (fun printed temp => printed ++ [(heap temp).toString]) h []
  rwa [List.foldl_append_eq_append, List.nil_append, ← List.flatMap_def, ← List.map_eq_flatMap]
    at hwalk

theorem reverseList_returns (h : Leads heap.next l.head nodes none) :
    Returns (fun turns => l.reverseList turns heap) (nodes.reverse.map fun a => (heap a).toString) := by
  have hwalk := walk_returns (fun stack next => next :: stack) h []
  rw [List.foldl_flip_cons_eq_append', List.append_nil] at hwalk
  exact hwalk.bind (returns_pure _)

theorem size_returns (h : Leads heap.next l.head nodes none) (hlength : nodes.length < 2 ^ 31) :
    Returns (fun turns => l.size turns heap) (nodes.length : ℤ) := by
  have hwalk := walk_returns (fun size _ => Java.wrap (size + 1)) h (0 : ℤ)
  have hcount := Java.foldl_wrap_succ nodes 0 (by rwa [Nat.zero_add])
  rw [Nat.zero_add] at hcount
  rwa [← hcount]

end Walk

/-! ## From the end -/

section Reciprocal

variable {heap : Heap} {p : Option ℕ} {nodes : List ℕ} {l : LinkedList} {index : ℤ}

/-- Behind the last node there is `null`, and no step from there. -/
theorem advance_eq (h : Leads heap.next p nodes none) (target : ℕ) : advance heap target p =
    if target ≤ nodes.length then .ok nodes[target]? else .error nullPointer := by
  induction nodes generalizing p target with
  | nil =>
    obtain rfl : p = none := h
    cases target with
    | zero => rfl
    | succ target => rfl
  | cons a nodes ih =>
    obtain ⟨rfl, hrest⟩ := h
    cases target with
    | zero => rfl
    | succ target =>
      have hstep : advance heap (target + 1) (some a) = advance heap target (heap.next a) := rfl
      simp only [hstep, ih hrest, List.length_cons, Nat.add_le_add_iff_right, List.getElem?_cons_succ]

/-- The node that is told, or what is thrown. The difference to a negative index may be too large
for an int. -/
def reciprocal (nodes : List ℕ) (index : ℤ) : Except String (Option ℕ) :=
  if 0 < index then .ok nodes.reverse[(index - 1).toNat]?
  else if index = 0 then .ok none
  else if nodes.length - index < 2 ^ 31 then .error nullPointer
  else .ok nodes.head?

/-- Whatever the index, `findByReciprocal` returns that node or throws that. -/
theorem findByReciprocal_eq (h : Leads heap.next l.head nodes none) (hlength : nodes.length < 2 ^ 31)
    (hlo : -2 ^ 31 ≤ index) (hhi : index < 2 ^ 31) :
    ∃ n, ∀ turns, n ≤ turns → l.findByReciprocal turns heap index = reciprocal nodes index := by
  obtain ⟨n, hn⟩ := size_returns h hlength
  refine ⟨n, fun turns hturns => ?_⟩
  have hsize : l.size turns heap = .ok (nodes.length : ℤ) := hn turns hturns
  have hcall : l.findByReciprocal turns heap index =
      if index > nodes.length then .ok none
      else advance heap (Java.wrap (nodes.length - index)).toNat l.head := by
    rw [findByReciprocal, hsize]
    rfl
  rw [hcall, advance_eq h]
  by_cases hgt : index > nodes.length
  · rw [if_pos hgt, reciprocal, if_pos (by omega), List.getElem?_eq_none]
    rw [List.length_reverse]
    omega
  · rw [if_neg hgt]
    by_cases hint : nodes.length - index < 2 ^ 31
    · rw [Java.wrap_of_int (by omega) hint, reciprocal, if_pos hint]
      by_cases hpos : 0 < index
      · rw [if_pos (by omega), if_pos hpos, List.getElem?_reverse (by omega)]
        congr 2
        omega
      · rw [if_neg hpos]
        by_cases hzero : index = 0
        · rw [if_pos (by omega), if_pos hzero, List.getElem?_eq_none]
          omega
        · rw [if_neg (by omega), if_neg hzero]
    · -- the difference is negative, and no step is taken
      rw [Java.wrap_of_over (by omega) (by omega), if_pos (by omega), reciprocal, if_neg (by omega),
        if_neg (by omega), if_neg hint, Int.toNat_of_nonpos (by omega), List.head?_eq_getElem?]

/-- The numbers 1, 5 and 3. -/
def threeNodes : Heap := fun a =>
  match a with
  | 0 => ⟨1, none, none, some 1, none⟩
  | 1 => ⟨5, some "five", none, some 2, none⟩
  | _ => ⟨3, none, some "three", none, none⟩

theorem findByReciprocal_eq_three : ∃ n, ∀ turns, n ≤ turns →
    findByReciprocal turns threeNodes ⟨some 0⟩ (-2 ^ 31) = reciprocal [0, 1, 2] (-2 ^ 31) :=
  findByReciprocal_eq (show Leads threeNodes.next (some 0) [0, 1, 2] none from ⟨rfl, rfl, rfl, rfl⟩) (by decide) (by decide) (by decide)

end Reciprocal

/-! ## The other way round -/

section Reverse

variable {heap heap' : Heap} {p q : Option ℕ} {nodes done rest : List ℕ} {l : LinkedList} {a : ℕ}

/-- Only what nodes of the list refer to as the next one is different. -/
def Relinks (heap heap' : Heap) (nodes : List ℕ) : Prop :=
  (∀ a, heap' a = { heap a with next := heap'.next a }) ∧ ∀ a ∉ nodes, heap'.next a = heap.next a

theorem Relinks.refl (heap : Heap) (nodes : List ℕ) : Relinks heap heap nodes :=
  ⟨fun _ => rfl, fun _ _ => rfl⟩

theorem Relinks.trans {heap'' : Heap} (h : Relinks heap heap' nodes) (h' : Relinks heap' heap'' nodes) :
    Relinks heap heap'' nodes := by
  refine ⟨fun a => ?_, fun a ha => (h'.2 a ha).trans (h.2 a ha)⟩
  rw [h'.1 a, h.1 a]

theorem relinks_setNext (ha : a ∈ nodes) (p : Option ℕ) : Relinks heap (heap.setNext a p) nodes := by
  refine ⟨fun b => ?_, fun b hb => ?_⟩
  · by_cases hb : b = a
    · rw [hb, Heap.next, setNext, Function.update_self]
    · rw [Heap.next, setNext, Function.update_of_ne hb]
  · rw [next_setNext, Function.update_of_ne]
    rintro rfl
    exact hb ha

theorem reverseFrom_returns (hdone : Leads heap.next q done none) (hrest : Leads heap.next p rest none)
    (hnodup : (done ++ rest).Nodup) (hmem : rest ⊆ nodes) : ∃ heap' head,
      Returns (fun turns => reverseFrom turns heap q p) (heap', head) ∧
      Leads heap'.next head (rest.reverse ++ done) none ∧ Relinks heap heap' nodes := by
  induction rest generalizing heap p q done with
  | nil =>
    obtain rfl : p = none := hrest
    refine ⟨heap, q, ⟨0, fun turns _ => ?_⟩, hdone, Relinks.refl heap nodes⟩
    cases turns <;> rfl
  | cons a rest ih =>
    obtain ⟨rfl, hrest⟩ := hrest
    have hperm : (done ++ a :: rest).Perm (a :: done ++ rest) := List.perm_middle
    have hnodup' : (a :: (done ++ rest)).Nodup := hperm.nodup_iff.mp hnodup
    obtain ⟨ha, -⟩ := List.nodup_cons.mp hnodup'
    rw [List.mem_append, not_or] at ha
    have hpush : Leads (heap.setNext a q).next (some a) (a :: done) none := by
      rw [next_setNext]
      exact hdone.push ha.1
    have hleft : Leads (heap.setNext a q).next (heap.next a) rest none := by
      rwa [next_setNext, leads_update ha.2]
    obtain ⟨heap', head, hr, hleads, hrelinks⟩ := ih hpush hleft hnodup'
      fun b hb => hmem (List.mem_cons_of_mem a hb)
    refine ⟨heap', head, ?_, ?_, (relinks_setNext (hmem List.mem_cons_self) q).trans hrelinks⟩
    · rw [← returns_succ]
      exact hr
    · rwa [List.reverse_cons, List.append_assoc]

theorem reverse_returns (h : Leads heap.next l.head nodes none) : ∃ heap' l',
    Returns (fun turns => l.reverse turns heap) (heap', l') ∧
      Leads heap'.next l'.head nodes.reverse none ∧ Relinks heap heap' nodes := by
  have hdone : Leads heap.next none [] none := rfl
  obtain ⟨heap', head, hr, hleads, hrelinks⟩ :=
    reverseFrom_returns hdone h h.nodup (List.Subset.refl nodes)
  rw [List.append_nil] at hleads
  exact ⟨heap', ⟨head⟩, hr.bind (returns_pure _), hleads, hrelinks⟩

/-- On the same nodes in the same order, nothing is different. -/
theorem Relinks.eq (h : Relinks heap heap' nodes) (hleads : Leads heap.next p nodes none)
    (hleads' : Leads heap'.next q nodes none) : heap' = heap := by
  funext a
  have hnext : heap'.next a = heap.next a := by
    by_cases ha : a ∈ nodes
    · obtain ⟨xs, ys, rfl⟩ := List.append_of_mem ha
      rw [next_of_leads hleads', next_of_leads hleads]
    · exact h.2 a ha
  rw [h.1 a, hnext]
  rfl

/-- `reverse` ends with the nodes the other way round, so that `list` prints what `reverseList` did
before. Another call puts everything back. -/
theorem exists_reverse (h : Leads heap.next l.head nodes none) : ∃ heap' l' printed,
    Returns (fun turns => l.reverse turns heap) (heap', l') ∧
      Leads heap'.next l'.head nodes.reverse none ∧
      Returns (fun turns => l.reverseList turns heap) printed ∧
      Returns (fun turns => l'.list turns heap') printed ∧
      Returns (fun turns => l'.reverse turns heap') (heap, l) := by
  obtain ⟨heap', l', hr, hleads, hrelinks⟩ := reverse_returns h
  obtain ⟨heap'', l'', hr', hleads', hrelinks'⟩ := reverse_returns hleads
  rw [List.reverse_reverse] at hleads'
  have hback : Relinks heap heap'' nodes :=
    hrelinks.trans ⟨hrelinks'.1, fun a ha => hrelinks'.2 a fun hmem => ha (List.mem_reverse.mp hmem)⟩
  have hprinted : (nodes.reverse.map fun a => (heap' a).toString) =
      nodes.reverse.map fun a => (heap a).toString := by
    refine List.map_congr_left fun a _ => ?_
    rw [hrelinks.1 a]
    rfl
  refine ⟨heap', l', _, hr, hleads, reverseList_returns h, hprinted ▸ list_returns hleads, ?_⟩
  obtain rfl := hback.eq h hleads'
  have hhead : l'' = l := congrArg LinkedList.mk (hleads'.head_eq.trans h.head_eq.symm)
  rwa [hhead] at hr'

theorem exists_reverse_three : ∃ heap' l' printed,
    Returns (fun turns => reverse turns threeNodes ⟨some 0⟩) (heap', l') ∧
      Leads heap'.next l'.head [2, 1, 0] none ∧
      Returns (fun turns => reverseList turns threeNodes ⟨some 0⟩) printed ∧
      Returns (fun turns => list turns heap' l') printed ∧
      Returns (fun turns => reverse turns heap' l') (threeNodes, ⟨some 0⟩) :=
  exists_reverse (show Leads threeNodes.next (some 0) [0, 1, 2] none from ⟨rfl, rfl, rfl, rfl⟩)

end Reverse

end LinkedList

end BigPlan.Algorithm
