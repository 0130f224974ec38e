import BigPlan.Algorithm.LinkedList

/-!
# The doubly linked list

A node that is deleted in the middle of the list is linked out in both directions. Where the first
or the last node is deleted, the node next to it still refers to it, so the two directions go over
the nodes that are left as long as no delete meets either of them, unless there is just one node.
-/
namespace BigPlan.Algorithm

open Lib Lib.Chain Lib.Recursion Lib.Runs Heap

/-! ## `DoubleLinkedList` -/

structure DoubleLinkedList where
  /-- `head.getNext()` -/
  first : Option ℕ
  tail : Option ℕ
  deriving DecidableEq, Repr

namespace DoubleLinkedList

def add (heap : Heap) (list : DoubleLinkedList) (node : ℕ) : Heap × DoubleLinkedList :=
  match list.tail with
  | none => (heap, ⟨some node, some node⟩)
  | some tail =>
    ((heap.setNext tail (some node)).setPre node (some tail), { list with tail := some node })

/-- The deletion of one node: the three cases are looked at one after the other. -/
def deleteNode (heap : Heap) (list : DoubleLinkedList) (next : ℕ) : Heap × DoubleLinkedList :=
  let list := if (heap next).pre = none then { list with first := (heap next).next } else list
  let list := if (heap next).next = none then { list with tail := (heap next).pre } else list
  match (heap next).pre, (heap next).next with
  | some before, some after =>
    let heap := heap.setNext before (some after)
    (heap.setPre after (heap next).pre, list)
  | _, _ => (heap, list)

/-- The loop of `delete`. -/
def deleteFrom (no : ℤ) : ℕ → Heap → DoubleLinkedList → Option ℕ →
    Except String (Heap × DoubleLinkedList)
  | _, heap, list, none => .ok (heap, list)
  | 0, _, _, some _ => .error outOfTurns
  | turns + 1, heap, list, some next =>
    let (heap, list) := if (heap next).no = no then deleteNode heap list next else (heap, list)
    deleteFrom no turns heap list (heap next).next

def delete (turns : ℕ) (heap : Heap) (list : DoubleLinkedList) (no : ℤ) :
    Except String (Heap × DoubleLinkedList) :=
  deleteFrom no turns heap list list.first

end DoubleLinkedList

/-! ## Calls -/

inductive DoubleCall where
  | add (no : ℤ) (names : Names)
  | delete (no : ℤ)
  deriving DecidableEq, Repr

/-- The heap up to the next address, and a list. -/
structure DoubleState where
  heap : Heap
  fresh : ℕ
  list : DoubleLinkedList

namespace DoubleState

def start : DoubleState := ⟨fun _ => ⟨0, none, none, none, none⟩, 0, ⟨none, none⟩⟩

/-- `new Node(no, name, nickName)`. -/
def newNode (s : DoubleState) (no : ℤ) (names : Names) : Heap :=
  Function.update s.heap s.fresh ⟨no, names.1, names.2, none, none⟩

/-- A call with a new node. -/
def call (turns : ℕ) (s : DoubleState) : DoubleCall → Except String (DoubleState × Unit)
  | .add no names =>
    let (heap, list) := s.list.add (s.newNode no names) s.fresh
    return (⟨heap, s.fresh + 1, list⟩, ())
  | .delete no => do
    let (heap, list) ← s.list.delete turns s.heap no
    return ({ s with heap := heap, list := list }, ())

end DoubleState

/-! ## What the list is -/

/-- The nodes that were added and not deleted, with their numbers, in the order of their
addition. -/
structure Added where
  fresh : ℕ
  nodes : List (ℕ × ℤ)
  deriving DecidableEq, Repr

namespace Added

def start : Added := ⟨0, []⟩

def call (q : Added) : DoubleCall → Added × Unit
  | .add no _ => (⟨q.fresh + 1, q.nodes ++ [(q.fresh, no)]⟩, ())
  | .delete no => ({ q with nodes := q.nodes.filter fun n => n.2 ≠ no }, ())

end Added

/-! ## Both directions -/

namespace DoubleLinkedList

variable {heap : Heap} {list : DoubleLinkedList} {nodes xs ys : List ℕ} {a b c d node : ℕ} {no : ℤ}

/-- The list goes over the nodes in both directions. -/
structure Linked (heap : Heap) (list : DoubleLinkedList) (nodes : List ℕ) : Prop where
  forward : Leads heap.next list.first nodes none
  backward : Leads heap.pre list.tail nodes.reverse none

theorem Linked.add (h : Linked heap list nodes) (hnode : node ∉ nodes)
    (hnext : heap.next node = none) (hpre : heap.pre node = none) :
    Linked (list.add heap node).1 (list.add heap node).2 (nodes ++ [node]) := by
  obtain rfl | ⟨xs, t, rfl⟩ := List.eq_nil_or_concat' nodes
  · have htail : list.tail = none := h.backward
    simp only [DoubleLinkedList.add, htail]
    exact ⟨⟨rfl, hnext⟩, ⟨rfl, hpre⟩⟩
  · have hback := h.backward
    rw [List.reverse_append, List.reverse_singleton, List.singleton_append] at hback
    have htail : list.tail = some t := hback.1
    simp only [DoubleLinkedList.add, htail]
    constructor
    · rw [next_setPre, next_setNext, List.append_assoc]
      exact h.forward.insert_last hnode hnext
    · rw [pre_setPre, pre_setNext, List.reverse_append, List.reverse_singleton, ← htail]
      exact h.backward.push fun hmem => hnode (List.mem_reverse.mp hmem)

theorem sameEntries_add (heap : Heap) (list : DoubleLinkedList) (node : ℕ) :
    SameEntries heap (list.add heap node).1 := by
  unfold DoubleLinkedList.add
  cases list.tail with
  | none => exact sameEntries_refl heap
  | some t => exact (sameEntries_setNext _ _ _).trans (sameEntries_setPre _ _ _)

/-- What the nodes of the list refer to. -/
theorem Linked.next_eq (h : Linked heap list (xs ++ c :: ys)) : heap.next c = ys.head? :=
  next_of_leads h.forward

theorem Linked.pre_eq (h : Linked heap list (xs ++ c :: ys)) : heap.pre c = xs.getLast? := by
  have hback := h.backward
  rw [List.reverse_append, List.reverse_cons, List.append_assoc, List.singleton_append] at hback
  rw [next_of_leads hback, List.head?_reverse]

/-- A node between two others is linked out. -/
theorem Linked.erase (h : Linked heap list (xs ++ b :: c :: d :: ys)) :
    deleteNode heap list c = ((heap.setNext b (some d)).setPre d (some b), list) ∧
      Linked ((heap.setNext b (some d)).setPre d (some b)) list (xs ++ b :: d :: ys) := by
  have hsplit : Linked heap list ((xs ++ [b]) ++ c :: d :: ys) := by
    rw [← List.append_cons]
    exact h
  have hnext : (heap c).next = some d := hsplit.next_eq
  have hpre : (heap c).pre = some b := hsplit.pre_eq.trans List.getLast?_concat
  refine ⟨?_, ?_, ?_⟩
  · have hset : ((heap.setNext b (some d)) c).pre = some b := by
      rw [← hpre]
      exact congrFun (pre_setNext _) c
    simp only [deleteNode, hnext, hpre, hset, reduceCtorEq, if_false]
  · rw [next_setPre, next_setNext, ← hnext]
    exact h.forward.erase
  · have hback := h.backward
    simp only [List.reverse_append, List.reverse_cons, List.append_assoc,
      List.singleton_append] at hback ⊢
    rw [pre_setPre, pre_setNext, ← hpre]
    exact hback.erase

/-! ## Deleting -/

/-- The numbers are the same, so the nodes that keep are. -/
theorem filter_sameEntries {heap' : Heap} (h : SameEntries heap heap') (no : ℤ) (l : List ℕ) :
    (l.filter fun x => (heap' x).no ≠ no) = l.filter fun x => (heap x).no ≠ no := by
  refine List.filter_congr fun x _ => ?_
  rw [(h x).1]

/-- If neither the first nor the last node has the number, the loop links out the others that
do. -/
theorem deleteFrom_returns {done rest : List ℕ} {cursor : Option ℕ}
    (h : Linked heap list (done ++ rest)) (hcursor : Leads heap.next cursor rest none)
    (hfirst : done = [] → ∀ x ∈ rest.head?, (heap x).no ≠ no)
    (hlast : ∀ x ∈ rest.getLast?, (heap x).no ≠ no) :
    ∃ heap', Returns (fun turns => deleteFrom no turns heap list cursor) (heap', list) ∧
      Linked heap' list (done ++ rest.filter fun x => (heap x).no ≠ no) ∧
      SameEntries heap heap' := by
  induction rest generalizing heap done cursor with
  | nil =>
    have hnone : cursor = none := hcursor
    refine ⟨heap, ⟨0, fun turns _ => ?_⟩, h, sameEntries_refl heap⟩
    rw [hnone]
    cases turns <;> rfl
  | cons c rest ih =>
    obtain ⟨rfl, hrest⟩ := hcursor
    by_cases hno : (heap c).no = no
    · have hdone : done ≠ [] := fun hnil => hfirst hnil c rfl hno
      obtain ⟨xs, b, rfl⟩ := (List.eq_nil_or_concat' done).resolve_left hdone
      cases rest with
      | nil => exact absurd hno (hlast c rfl)
      | cons d ys =>
        rw [List.append_assoc, List.singleton_append] at h
        have hnodup := h.forward.nodup
        simp only [List.nodup_append, List.nodup_cons, List.mem_cons, not_or] at hnodup
        obtain ⟨-, ⟨⟨hbc, hbd, hbys⟩, -⟩, -⟩ := hnodup
        obtain ⟨hdelete, hlinked⟩ := h.erase
        have hsame : SameEntries heap ((heap.setNext b (some d)).setPre d (some b)) :=
          (sameEntries_setNext _ _ _).trans (sameEntries_setPre _ _ _)
        have hnext : ((heap.setNext b (some d)).setPre d (some b)).next c = heap.next c := by
          rw [next_setPre, next_setNext, Function.update_of_ne (Ne.symm hbc)]
        have hbrest : b ∉ d :: ys := by
          rw [List.mem_cons]
          exact not_or.mpr ⟨hbd, hbys⟩
        rw [List.append_cons] at hlinked
        have hrest' : Leads ((heap.setNext b (some d)).setPre d (some b)).next (heap.next c)
            (d :: ys) none := by
          rwa [next_setPre, next_setNext, leads_update hbrest]
        obtain ⟨heap', hr, hlinked', hsame'⟩ := ih hlinked hrest' (fun hnil => absurd hnil hdone)
          (fun x hx => by
            rw [(hsame x).1]
            exact hlast x (by rwa [List.getLast?_cons_cons]))
        refine ⟨heap', ?_, ?_, hsame.trans hsame'⟩
        · rw [← hnext] at hr
          rw [← returns_succ]
          simp only [deleteFrom, if_pos hno, hdelete]
          exact hr
        · rw [filter_sameEntries hsame] at hlinked'
          rwa [List.filter_cons_of_neg (by simpa using hno)]
    · rw [List.append_cons] at h
      obtain ⟨heap', hr, hlinked', hsame'⟩ := ih h hrest
        (fun hnil => absurd hnil (List.append_ne_nil_of_right_ne_nil _ (List.cons_ne_nil _ _)))
        (fun x hx => by
          cases rest with
          | nil => cases hx
          | cons d ys => exact hlast x (by rwa [List.getLast?_cons_cons]))
      refine ⟨heap', ?_, ?_, hsame'⟩
      · rw [← returns_succ]
        simp only [deleteFrom, if_neg hno]
        exact hr
      · rwa [List.filter_cons_of_pos (by simpa using hno), List.append_cons]

/-- The only node of a list is deleted if it has the number. -/
theorem delete_single (h : Linked heap list [a]) (no : ℤ) :
    ∃ list', Returns (fun turns => list.delete turns heap no) (heap, list') ∧
      Linked heap list' ([a].filter fun x => (heap x).no ≠ no) := by
  have hfirst : list.first = some a := h.forward.1
  have hnext : (heap a).next = none := h.forward.2
  have hpre : (heap a).pre = none := h.backward.2
  by_cases hno : (heap a).no = no
  · refine ⟨⟨none, none⟩, ?_, ?_⟩
    · unfold delete
      rw [← returns_succ]
      refine ⟨0, fun turns _ => ?_⟩
      simp only [hfirst, deleteFrom, if_pos hno, deleteNode, hnext, hpre, if_true]
    · rw [List.filter_cons_of_neg (by simpa using hno)]
      exact ⟨rfl, rfl⟩
  · refine ⟨list, ?_, ?_⟩
    · unfold delete
      rw [← returns_succ]
      refine ⟨0, fun turns _ => ?_⟩
      simp only [hfirst, deleteFrom, if_neg hno, hnext]
    · rw [List.filter_cons_of_pos (by simpa using hno)]
      exact h

/-- A number is deleted from a list of one node, or where neither the first nor the last node
has it. -/
theorem delete_returns (h : Linked heap list nodes)
    (hallowed : nodes.length ≤ 1 ∨
      (∀ x ∈ nodes.head?, (heap x).no ≠ no) ∧ ∀ x ∈ nodes.getLast?, (heap x).no ≠ no) :
    ∃ heap' list', Returns (fun turns => list.delete turns heap no) (heap', list') ∧
      Linked heap' list' (nodes.filter fun x => (heap x).no ≠ no) ∧ SameEntries heap heap' := by
  obtain hshort | ⟨hfirst, hlast⟩ := hallowed
  · cases nodes with
    | nil =>
      have h' : Linked heap list ([] ++ []) := h
      obtain ⟨heap', hr, hlinked, hsame⟩ := deleteFrom_returns h' h.forward
        (fun _ x (hx : x ∈ none) => by cases hx)
        (fun x (hx : x ∈ none) => show (heap x).no ≠ no by cases hx)
      exact ⟨heap', list, hr, hlinked, hsame⟩
    | cons a l =>
      cases l with
      | nil =>
        obtain ⟨list', hr, hlinked⟩ := delete_single h no
        exact ⟨heap, list', hr, hlinked, sameEntries_refl heap⟩
      | cons b l => simp at hshort
  · have h' : Linked heap list ([] ++ nodes) := h
    obtain ⟨heap', hr, hlinked, hsame⟩ := deleteFrom_returns h' h.forward (fun _ => hfirst) hlast
    exact ⟨heap', list, hr, hlinked, hsame⟩

end DoubleLinkedList

/-! ## Runs -/

namespace DoubleState

open DoubleLinkedList

/-- The list goes over the nodes that were added and not deleted, in both directions. -/
structure Represents (s : DoubleState) (q : Added) : Prop where
  linked : Linked s.heap s.list (q.nodes.map Prod.fst)
  no_eq : ∀ n ∈ q.nodes, (s.heap n.1).no = n.2
  fresh_eq : s.fresh = q.fresh
  lt_fresh : ∀ n ∈ q.nodes, n.1 < q.fresh

variable {s : DoubleState} {q : Added}

theorem represents_start : Represents start .start where
  linked := ⟨rfl, rfl⟩
  no_eq _ hn := absurd hn List.not_mem_nil
  fresh_eq := rfl
  lt_fresh _ hn := absurd hn List.not_mem_nil

/-- A delete meets neither the first nor the last node, unless there is just one. -/
def Allowed (q : Added) : DoubleCall → Prop
  | .add _ _ => True
  | .delete no => q.nodes.length ≤ 1 ∨
      (∀ n ∈ q.nodes.head?, n.2 ≠ no) ∧ ∀ n ∈ q.nodes.getLast?, n.2 ≠ no

theorem Represents.fresh_not_mem (h : s.Represents q) : s.fresh ∉ q.nodes.map Prod.fst := by
  intro hmem
  obtain ⟨n, hn, heq⟩ := List.mem_map.mp hmem
  have hlt := h.lt_fresh n hn
  rw [heq, h.fresh_eq] at hlt
  exact Nat.lt_irrefl _ hlt

theorem call_add_returns (h : s.Represents q) (no : ℤ) (names : Names) :
    ∃ s', Returns (fun turns => s.call turns (.add no names)) (s', ()) ∧
      s'.Represents (q.call (.add no names)).1 := by
  have hfresh := h.fresh_not_mem
  have hnode : s.newNode no names s.fresh = ⟨no, names.1, names.2, none, none⟩ :=
    Function.update_self _ _ _
  have hlinked : Linked (s.newNode no names) s.list (q.nodes.map Prod.fst) := by
    constructor
    · rw [newNode, next_update, leads_update hfresh]
      exact h.linked.forward
    · rw [newNode, pre_update, leads_update fun hmem => hfresh (List.mem_reverse.mp hmem)]
      exact h.linked.backward
  have hnext : Heap.next (s.newNode no names) s.fresh = none := by rw [Heap.next, hnode]
  have hpre : Heap.pre (s.newNode no names) s.fresh = none := by rw [Heap.pre, hnode]
  have hsame := sameEntries_add (s.newNode no names) s.list s.fresh
  refine ⟨⟨(s.list.add (s.newNode no names) s.fresh).1, s.fresh + 1,
    (s.list.add (s.newNode no names) s.fresh).2⟩, returns_pure _, ?_, ?_, ?_, ?_⟩
  · rw [Added.call, List.map_append, ← h.fresh_eq]
    exact hlinked.add hfresh hnext hpre
  · intro n hn
    rw [(hsame n.1).1]
    obtain hold | hnew := List.mem_append.mp hn
    · rw [newNode, Function.update_of_ne, h.no_eq n hold]
      intro heq
      exact hfresh (heq ▸ List.mem_map_of_mem hold)
    · rw [List.mem_singleton.mp hnew, ← h.fresh_eq, hnode]
  · exact congrArg (· + 1) h.fresh_eq
  · intro n hn
    obtain hold | hnew := List.mem_append.mp hn
    · exact Nat.lt_succ_of_lt (h.lt_fresh n hold)
    · rw [List.mem_singleton.mp hnew]
      exact Nat.lt_succ_self _

theorem call_delete_returns (h : s.Represents q) {no : ℤ} (hallowed : Allowed q (.delete no)) :
    ∃ s', Returns (fun turns => s.call turns (.delete no)) (s', ()) ∧
      s'.Represents (q.call (.delete no)).1 := by
  have hfilter : ((q.nodes.map Prod.fst).filter fun x => (s.heap x).no ≠ no) =
      (q.nodes.filter fun n => n.2 ≠ no).map Prod.fst := by
    rw [List.filter_map]
    refine congrArg _ (List.filter_congr fun n hn => ?_)
    rw [Function.comp_apply, h.no_eq n hn]
  have hallowed' : (q.nodes.map Prod.fst).length ≤ 1 ∨
      (∀ x ∈ (q.nodes.map Prod.fst).head?, (s.heap x).no ≠ no) ∧
        ∀ x ∈ (q.nodes.map Prod.fst).getLast?, (s.heap x).no ≠ no := by
    obtain hshort | ⟨hfirst, hlast⟩ := hallowed
    · exact Or.inl (by rwa [List.length_map])
    · refine Or.inr ⟨?_, ?_⟩
      · intro x hx
        rw [List.head?_map, Option.mem_def, Option.map_eq_some_iff] at hx
        obtain ⟨n, hn, rfl⟩ := hx
        rw [h.no_eq n (List.mem_of_head? hn)]
        exact hfirst n hn
      · intro x hx
        rw [List.getLast?_map, Option.mem_def, Option.map_eq_some_iff] at hx
        obtain ⟨n, hn, rfl⟩ := hx
        rw [h.no_eq n (List.mem_of_getLast? hn)]
        exact hlast n hn
  obtain ⟨heap', list', hr, hlinked, hsame⟩ := delete_returns h.linked hallowed'
  refine ⟨{ s with heap := heap', list := list' }, hr.bind (returns_pure _), ?_, ?_, h.fresh_eq, ?_⟩
  · rw [hfilter] at hlinked
    exact hlinked
  · intro n hn
    rw [(hsame n.1).1]
    exact h.no_eq n (List.mem_of_mem_filter hn)
  · exact fun n hn => h.lt_fresh n (List.mem_of_mem_filter hn)

theorem call_returns (h : s.Represents q) {c : DoubleCall} (hc : Allowed q c) :
    ∃ s', Returns (fun turns => s.call turns c) (s', (q.call c).2) ∧
      s'.Represents (q.call c).1 := by
  cases c with
  | add no names => exact call_add_returns h no names
  | delete no => exact call_delete_returns h hc

/-- The calls return, and the list then goes over the nodes that were added and not deleted. -/
def IsLinked (calls : List DoubleCall) : Prop :=
  ∃ s', Returns (fun turns => answersM (call turns) start calls)
      (s', (answers Added.call .start calls).2) ∧
    s'.Represents (answers Added.call .start calls).1

/-- If no delete meets the first or the last of several nodes, both directions go over the nodes
that are left. -/
theorem isLinked_of_allowed (calls : List DoubleCall)
    (h : Along (fun q c => (Added.call q c).1) Allowed .start calls) : IsLinked calls := by
  have hcall : ∀ s q c, Represents s q → Allowed q c →
      ∃ s', Returns (fun turns => s.call turns c) (s', (Added.call q c).2) ∧
        Represents s' (Added.call q c).1 := fun _ _ _ hrep hc => call_returns hrep hc
  exact returns_answers hcall represents_start h

/-- Two nodes with the number 3 between 1 and 5. -/
theorem isLinked_of_allowed_four :
    IsLinked [.add 1 (none, none), .add 3 (none, none), .add 3 (none, none), .add 5 (none, none),
      .delete 3] := by
  refine isLinked_of_allowed _ ⟨trivial, trivial, trivial, trivial, Or.inr ⟨?_, ?_⟩, trivial⟩
  · decide
  · decide

/-- What the tail of the list refers to. -/
def tailPre : Except String (DoubleState × List Unit) → Option (Option ℕ)
  | .ok (s, _) => s.list.tail.map fun t => s.heap.pre t
  | .error _ => none

/-- The first of two nodes is deleted, and the other one still refers to it. -/
theorem not_isLinked : ¬ ∀ calls, IsLinked calls := by
  intro h
  obtain ⟨s', ⟨n, hn⟩, hrep⟩ := h [.add 1 (none, none), .add 2 (none, none), .delete 1]
  have hpre : some (some 0) = s'.list.tail.map s'.heap.pre :=
    congrArg tailPre (hn (n + 10) (Nat.le_add_right _ _))
  obtain ⟨htail, hnone⟩ : s'.list.tail = some 1 ∧ s'.heap.pre 1 = none := hrep.linked.backward
  rw [htail, Option.map_some, hnone] at hpre
  cases hpre

end DoubleState

end BigPlan.Algorithm
