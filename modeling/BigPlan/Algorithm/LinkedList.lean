import BigPlan.Lib.Chain
import BigPlan.Lib.Recursion
import Mathlib.Data.Int.Notation

/-!
# The ordered linked list

Nodes lie in a heap and refer to each other by their addresses. The list is linked in the order
of the numbers, and is a map from the numbers to what is written in the nodes, as long as no one
adds the number of the last node once more: the loop looks for the end of the list before it
compares the numbers.
-/
namespace BigPlan.Algorithm

open Lib Lib.Chain Lib.Recursion Lib.Runs

/-! ## Nodes -/

/-- Numbers are ints that are only compared; names may be `null`. -/
structure Node where
  no : ℤ
  name : Option String
  nickName : Option String
  next : Option ℕ := none
  pre : Option ℕ := none
  deriving DecidableEq, Repr

abbrev Heap := ℕ → Node

namespace Heap

def setNext (heap : Heap) (a : ℕ) (next : Option ℕ) : Heap :=
  Function.update heap a { heap a with next := next }

def setPre (heap : Heap) (a : ℕ) (pre : Option ℕ) : Heap :=
  Function.update heap a { heap a with pre := pre }

/-- `setName` and `setNickName`. -/
def setNames (heap : Heap) (a : ℕ) (name nickName : Option String) : Heap :=
  Function.update heap a { heap a with name := name, nickName := nickName }

end Heap

/-- A loop that has not ended after so many turns. -/
def outOfTurns : String := "out of turns"

/-! ## `LinkedList` -/

structure LinkedList where
  /-- `sign.getNext()` -/
  head : Option ℕ
  deriving DecidableEq, Repr

namespace LinkedList

/-- The loop of `addByNo`. -/
def addFrom (node : ℕ) : ℕ → Heap → Option ℕ → Except String Heap
  | _, heap, none => .ok heap
  | 0, _, some _ => .error outOfTurns
  | turns + 1, heap, some temp =>
    match (heap temp).next with
    | none => .ok (heap.setNext temp (some node))
    | some tempNext =>
      if (heap node).no > (heap temp).no ∧ (heap node).no < (heap tempNext).no then
        .ok ((heap.setNext temp (some node)).setNext node (some tempNext))
      else if (heap node).no = (heap temp).no then .ok heap
      else addFrom node turns heap (some tempNext)

def addByNo (turns : ℕ) (heap : Heap) (list : LinkedList) (node : ℕ) :
    Except String (Heap × LinkedList) :=
  match list.head with
  | none => .ok (heap, ⟨some node⟩)
  | some temp =>
    if (heap node).no < (heap temp).no then .ok (heap.setNext node (some temp), ⟨some node⟩)
    else do
      let heap ← addFrom node turns heap (some temp)
      return (heap, list)

/-- The loop of `update`. -/
def updateFrom (no : ℤ) (name nickName : Option String) :
    ℕ → Heap → Option ℕ → Except String Heap
  | _, heap, none => .ok heap
  | 0, _, some _ => .error outOfTurns
  | turns + 1, heap, some temp =>
    if (heap temp).no = no then .ok (heap.setNames temp name nickName)
    else updateFrom no name nickName turns heap (heap temp).next

def update (turns : ℕ) (heap : Heap) (list : LinkedList) (no : ℤ)
    (name nickName : Option String) : Except String Heap :=
  match list.head with
  | none => .ok heap
  | some temp => updateFrom no name nickName turns heap (some temp)

/-- The loop of `remove`. -/
def removeFrom (no : ℤ) : ℕ → Heap → Option ℕ → Except String (Heap × Option ℕ)
  | _, heap, none => .ok (heap, none)
  | 0, _, some _ => .error outOfTurns
  | turns + 1, heap, some temp =>
    match (heap temp).next with
    | none => .ok (heap, none)
    | some next =>
      if (heap next).no = no then
        .ok ((heap.setNext temp (heap next).next).setNext next none, some next)
      else removeFrom no turns heap (some next)

/-- A first node that is removed still refers to the next one. -/
def remove (turns : ℕ) (heap : Heap) (list : LinkedList) (no : ℤ) :
    Except String (Heap × LinkedList × Option ℕ) :=
  match list.head with
  | none => .ok (heap, list, none)
  | some temp =>
    if (heap temp).no = no then .ok (heap, ⟨(heap temp).next⟩, some temp)
    else do
      let (heap, removed) ← removeFrom no turns heap (some temp)
      return (heap, list, removed)

end LinkedList

/-! ## Calls -/

/-- What is written in a node. -/
abbrev Names := Option String × Option String

def Node.names (n : Node) : Names := (n.name, n.nickName)

inductive ListCall where
  | addByNo (no : ℤ) (names : Names)
  | update (no : ℤ) (names : Names)
  | remove (no : ℤ)
  deriving DecidableEq, Repr

inductive ListAnswer where
  | done
  | removed (entry : Option (ℤ × Names))
  deriving DecidableEq, Repr

/-- The heap up to the next address, and a list. -/
structure ListState where
  heap : Heap
  fresh : ℕ
  list : LinkedList

namespace ListState

def start : ListState := ⟨fun _ => ⟨0, none, none, none, none⟩, 0, ⟨none⟩⟩

/-- `new Node(no, name, nickName)`. -/
def newNode (s : ListState) (no : ℤ) (names : Names) : ListState :=
  { s with heap := Function.update s.heap s.fresh ⟨no, names.1, names.2, none, none⟩,
           fresh := s.fresh + 1 }

/-- A call with a new node. A node that is returned is read. -/
def call (turns : ℕ) (s : ListState) : ListCall → Except String (ListState × ListAnswer)
  | .addByNo no names => do
    let t := s.newNode no names
    let (heap, list) ← t.list.addByNo turns t.heap s.fresh
    return ({ t with heap := heap, list := list }, .done)
  | .update no names => do
    let heap ← s.list.update turns s.heap no names.1 names.2
    return ({ s with heap := heap }, .done)
  | .remove no => do
    let (heap, list, removed) ← s.list.remove turns s.heap no
    return ({ s with heap := heap, list := list },
      .removed (removed.map fun a => ((heap a).no, (heap a).names)))

end ListState

/-! ## What the list is -/

/-- A finite map from numbers to names. -/
abbrev Entries := ℤ → Option Names

namespace Entries

def call (m : Entries) : ListCall → Entries × ListAnswer
  | .addByNo no names => (if m no = none then Function.update m no (some names) else m, .done)
  | .update no names => (if m no = none then m else Function.update m no (some names), .done)
  | .remove no => (Function.update m no none, .removed ((m no).map fun names => (no, names)))

/-- The number is the largest one of the map. -/
def IsLast (m : Entries) (no : ℤ) : Prop := m no ≠ none ∧ ∀ k, m k ≠ none → k ≤ no

end Entries

/-! ## Reading what was written -/

namespace Heap

variable {heap heap' : Heap} {a b : ℕ}

def next (heap : Heap) (a : ℕ) : Option ℕ := (heap a).next

def pre (heap : Heap) (a : ℕ) : Option ℕ := (heap a).pre

theorem next_update (heap : Heap) (a : ℕ) (n : Node) :
    Heap.next (Function.update heap a n) = Function.update heap.next a n.next := by
  funext b
  unfold next
  by_cases hb : b = a
  · rw [hb, Function.update_self, Function.update_self]
  · rw [Function.update_of_ne hb, Function.update_of_ne hb]

theorem pre_update (heap : Heap) (a : ℕ) (n : Node) :
    Heap.pre (Function.update heap a n) = Function.update heap.pre a n.pre := by
  funext b
  unfold pre
  by_cases hb : b = a
  · rw [hb, Function.update_self, Function.update_self]
  · rw [Function.update_of_ne hb, Function.update_of_ne hb]

@[simp] theorem next_setNext (p : Option ℕ) :
    (heap.setNext a p).next = Function.update heap.next a p := next_update _ _ _

@[simp] theorem next_setPre (p : Option ℕ) : (heap.setPre a p).next = heap.next := by
  rw [setPre, next_update]
  exact Function.update_eq_self a heap.next

@[simp] theorem next_setNames (name nickName : Option String) :
    (heap.setNames a name nickName).next = heap.next := by
  rw [setNames, next_update]
  exact Function.update_eq_self a heap.next

@[simp] theorem pre_setPre (p : Option ℕ) :
    (heap.setPre a p).pre = Function.update heap.pre a p := pre_update _ _ _

@[simp] theorem pre_setNext (p : Option ℕ) : (heap.setNext a p).pre = heap.pre := by
  rw [setNext, pre_update]
  exact Function.update_eq_self a heap.pre

/-- The numbers and the names are the same. -/
def SameEntries (heap heap' : Heap) : Prop :=
  ∀ a, (heap' a).no = (heap a).no ∧ (heap' a).names = (heap a).names

theorem sameEntries_refl (heap : Heap) : SameEntries heap heap := fun _ => ⟨rfl, rfl⟩

theorem SameEntries.trans {heap'' : Heap} (h : SameEntries heap heap')
    (h' : SameEntries heap' heap'') : SameEntries heap heap'' :=
  fun a => ⟨(h' a).1.trans (h a).1, (h' a).2.trans (h a).2⟩

theorem sameEntries_setNext (heap : Heap) (a : ℕ) (p : Option ℕ) :
    SameEntries heap (heap.setNext a p) := by
  intro b
  by_cases hb : b = a
  · rw [hb, setNext, Function.update_self]
    exact ⟨rfl, rfl⟩
  · rw [setNext, Function.update_of_ne hb]
    exact ⟨rfl, rfl⟩

theorem sameEntries_setPre (heap : Heap) (a : ℕ) (p : Option ℕ) :
    SameEntries heap (heap.setPre a p) := by
  intro b
  by_cases hb : b = a
  · rw [hb, setPre, Function.update_self]
    exact ⟨rfl, rfl⟩
  · rw [setPre, Function.update_of_ne hb]
    exact ⟨rfl, rfl⟩

@[simp] theorem no_setNames (name nickName : Option String) :
    (heap.setNames a name nickName b).no = (heap b).no := by
  by_cases hb : b = a
  · rw [hb, setNames, Function.update_self]
  · rw [setNames, Function.update_of_ne hb]

theorem names_setNames (name nickName : Option String) :
    (heap.setNames a name nickName b).names = if b = a then (name, nickName) else (heap b).names := by
  by_cases hb : b = a
  · rw [if_pos hb, hb, setNames, Function.update_self]
    rfl
  · rw [if_neg hb, setNames, Function.update_of_ne hb]

end Heap

/-! ## The list as a map -/

open Heap

/-- The list is linked over the nodes, in the order of their numbers, and the map has the
entries of the nodes. -/
structure Holds (heap : Heap) (head : Option ℕ) (nodes : List ℕ) (m : Entries) : Prop where
  leads : Leads heap.next head nodes none
  ascending : nodes.Pairwise fun a b => (heap a).no < (heap b).no
  entry_iff : ∀ no names,
    m no = some names ↔ ∃ a ∈ nodes, (heap a).no = no ∧ (heap a).names = names

section Holds

variable {heap heap' : Heap} {head head' : Option ℕ} {nodes nodes' : List ℕ} {m : Entries}
  {no : ℤ} {a node : ℕ}

theorem Holds.get (h : Holds heap head nodes m) (ha : a ∈ nodes) :
    m (heap a).no = some (heap a).names :=
  (h.entry_iff _ _).mpr ⟨a, ha, rfl, rfl⟩

theorem Holds.absent_iff (h : Holds heap head nodes m) :
    m no = none ↔ ∀ a ∈ nodes, (heap a).no ≠ no := by
  constructor
  · intro hnone a ha hno
    have hget := h.get ha
    rw [hno, hnone] at hget
    cases hget
  · intro hall
    cases hm : m no with
    | none => rfl
    | some names =>
      obtain ⟨a, ha, hno, -⟩ := (h.entry_iff no names).mp hm
      exact absurd hno (hall a ha)

/-- No two nodes have the same number. -/
theorem Holds.inj (h : Holds heap head nodes m) {b : ℕ} (ha : a ∈ nodes) (hb : b ∈ nodes)
    (hno : (heap a).no = (heap b).no) : a = b := by
  have hnodup : (nodes.map fun a => (heap a).no).Nodup :=
    (List.pairwise_map.mpr h.ascending).imp fun hlt => Int.ne_of_lt hlt
  exact List.inj_on_of_nodup_map hnodup ha hb hno

/-- With one more node, whose number is new. -/
theorem Holds.add (h : Holds heap head nodes m) (hsame : SameEntries heap heap')
    (habsent : m (heap node).no = none) (hleads : Leads heap'.next head' nodes' none)
    (hascending : nodes'.Pairwise fun a b => (heap a).no < (heap b).no)
    (hmem : ∀ a, a ∈ nodes' ↔ a = node ∨ a ∈ nodes) :
    Holds heap' head' nodes' (Function.update m (heap node).no (some (heap node).names)) where
  leads := hleads
  ascending := hascending.imp fun hlt => by rwa [(hsame _).1, (hsame _).1]
  entry_iff := by
    intro no names
    simp only [hmem, (hsame _).1, (hsame _).2, exists_eq_or_imp]
    by_cases hno : no = (heap node).no
    · rw [hno, Function.update_self, Option.some_inj]
      constructor
      · exact fun heq => Or.inl ⟨rfl, heq⟩
      · intro hor
        obtain ⟨-, heq⟩ | ⟨a, ha, heq, -⟩ := hor
        · exact heq
        · exact absurd heq (h.absent_iff.mp habsent a ha)
    · rw [Function.update_of_ne hno, h.entry_iff]
      constructor
      · exact Or.inr
      · intro hor
        obtain ⟨heq, -⟩ | hold := hor
        · exact absurd heq.symm hno
        · exact hold

/-- Without the node that has the number. -/
theorem Holds.drop (h : Holds heap head nodes m) (hsame : SameEntries heap heap')
    (ha : a ∈ nodes) (hno : (heap a).no = no) (hleads : Leads heap'.next head' nodes' none)
    (hsub : nodes'.Sublist nodes) (hmem : ∀ b, b ∈ nodes' ↔ b ≠ a ∧ b ∈ nodes) :
    Holds heap' head' nodes' (Function.update m no none) where
  leads := hleads
  ascending := (h.ascending.sublist hsub).imp fun hlt => by rwa [(hsame _).1, (hsame _).1]
  entry_iff := by
    intro k names
    simp only [hmem, (hsame _).1, (hsame _).2]
    by_cases hk : k = no
    · rw [hk, Function.update_self]
      refine iff_of_false (by simp) ?_
      intro hex
      obtain ⟨b, ⟨hne, hb⟩, hbno, -⟩ := hex
      exact hne (h.inj hb ha (hbno.trans hno.symm))
    · rw [Function.update_of_ne hk, h.entry_iff]
      constructor
      · intro hex
        obtain ⟨b, hb, hbno, hnames⟩ := hex
        refine ⟨b, ⟨?_, hb⟩, hbno, hnames⟩
        intro heq
        rw [heq, hno] at hbno
        exact hk hbno.symm
      · intro hex
        obtain ⟨b, ⟨-, hb⟩, hbno, hnames⟩ := hex
        exact ⟨b, hb, hbno, hnames⟩

/-- With other names in the node that has the number. -/
theorem Holds.setNames (h : Holds heap head nodes m) (ha : a ∈ nodes) (name nickName : Option String) :
    Holds (heap.setNames a name nickName) head nodes
      (Function.update m (heap a).no (some (name, nickName))) where
  leads := by
    rw [next_setNames]
    exact h.leads
  ascending := by
    simp only [no_setNames]
    exact h.ascending
  entry_iff := by
    intro no names
    simp only [no_setNames, names_setNames]
    by_cases hno : no = (heap a).no
    · rw [hno, Function.update_self, Option.some_inj]
      constructor
      · exact fun heq => ⟨a, ha, rfl, by rw [if_pos rfl, heq]⟩
      · intro hex
        obtain ⟨b, hb, hbno, hnames⟩ := hex
        rwa [if_pos (h.inj hb ha hbno)] at hnames
    · rw [Function.update_of_ne hno, h.entry_iff]
      constructor
      · intro hex
        obtain ⟨b, hb, hbno, hnames⟩ := hex
        refine ⟨b, hb, hbno, ?_⟩
        rw [if_neg fun heq => hno (by rw [← hbno, heq]), hnames]
      · intro hex
        obtain ⟨b, hb, hbno, hnames⟩ := hex
        refine ⟨b, hb, hbno, ?_⟩
        rwa [if_neg fun heq => hno (by rw [← hbno, heq])] at hnames

end Holds

/-! ## Adding -/

namespace LinkedList

variable {heap : Heap} {node temp : ℕ} {l : List ℕ}

/-- From a node whose number is not larger, the loop ends at a node with the same number, or links
the new node in behind the last one whose number is smaller. -/
theorem addFrom_returns (hleads : Leads heap.next (some temp) (temp :: l) none)
    (hascending : (temp :: l).Pairwise fun a b => (heap a).no < (heap b).no)
    (hnode : node ∉ temp :: l) (hnext : heap.next node = none)
    (hle : (heap temp).no ≤ (heap node).no)
    (hlast : ∀ b ∈ (temp :: l).getLast?, (heap b).no ≠ (heap node).no) :
    (∃ b ∈ temp :: l, (heap b).no = (heap node).no ∧
      Returns (fun turns => addFrom node turns heap (some temp)) heap) ∨
    ∃ xs b ys heap', temp :: l = xs ++ b :: ys ∧ (heap b).no < (heap node).no ∧
      (∀ y ∈ ys, (heap node).no < (heap y).no) ∧
      Returns (fun turns => addFrom node turns heap (some temp)) heap' ∧
      heap'.next = Function.update (Function.update heap.next b (some node)) node ys.head? ∧
      SameEntries heap heap' := by
  induction l generalizing temp with
  | nil =>
    have hend : (heap temp).next = none := hleads.2
    have hlt : (heap temp).no < (heap node).no :=
      Int.lt_iff_le_and_ne.mpr ⟨hle, hlast temp rfl⟩
    have hne : node ≠ temp := List.ne_of_not_mem_cons hnode
    refine Or.inr ⟨[], temp, [], heap.setNext temp (some node), rfl, hlt,
      fun y hy => absurd hy List.not_mem_nil, ?_, ?_, sameEntries_setNext _ _ _⟩
    · rw [← returns_succ]
      simp only [addFrom, hend]
      exact returns_pure _
    · rw [next_setNext, List.head?_nil, update_last hne hnext]
  | cons tempNext l ih =>
    have hstep : (heap temp).next = some tempNext := hleads.2.1
    obtain ⟨hfirst, hrest⟩ := List.pairwise_cons.mp hascending
    obtain ⟨hsecond, -⟩ := List.pairwise_cons.mp hrest
    by_cases hbetween : (heap node).no > (heap temp).no ∧ (heap node).no < (heap tempNext).no
    · refine Or.inr ⟨[], temp, tempNext :: l,
        (heap.setNext temp (some node)).setNext node (some tempNext), rfl, hbetween.1, ?_, ?_, ?_,
        (sameEntries_setNext _ _ _).trans (sameEntries_setNext _ _ _)⟩
      · intro y hy
        obtain rfl | hy := List.mem_cons.mp hy
        · exact hbetween.2
        · exact Int.lt_trans hbetween.2 (hsecond y hy)
      · rw [← returns_succ]
        simp only [addFrom, hstep, if_pos hbetween]
        exact returns_pure _
      · rw [next_setNext, next_setNext, List.head?_cons]
    · by_cases heq : (heap node).no = (heap temp).no
      · refine Or.inl ⟨temp, List.mem_cons_self, heq.symm, ?_⟩
        rw [← returns_succ]
        simp only [addFrom, hstep, if_neg hbetween, if_pos heq]
        exact returns_pure _
      · have hturn : ∀ {r}, Returns (fun turns => addFrom node turns heap (some tempNext)) r →
            Returns (fun turns => addFrom node turns heap (some temp)) r := by
          intro r hr
          rw [← returns_succ]
          simp only [addFrom, hstep, if_neg hbetween, if_neg heq]
          exact hr
        have hle' : (heap tempNext).no ≤ (heap node).no := by omega
        obtain hfound | hadded := ih ⟨rfl, hleads.2.2⟩ hrest (fun hmem => hnode (List.mem_cons_of_mem _ hmem))
          hle' fun b hb => hlast b (by rwa [List.getLast?_cons_cons])
        · obtain ⟨b, hb, hno, hreturns⟩ := hfound
          exact Or.inl ⟨b, List.mem_cons_of_mem _ hb, hno, hturn hreturns⟩
        · obtain ⟨xs, b, ys, heap', hsplit, hlt, hgt, hreturns, hnext', hsame⟩ := hadded
          exact Or.inr ⟨temp :: xs, b, ys, heap', by rw [hsplit, List.cons_append], hlt, hgt,
            hturn hreturns, hnext', hsame⟩

/-- A node in between keeps the order. -/
theorem ascending_insert {xs ys : List ℕ} {b : ℕ}
    (h : (xs ++ b :: ys).Pairwise fun a b => (heap a).no < (heap b).no)
    (hlt : (heap b).no < (heap node).no) (hgt : ∀ y ∈ ys, (heap node).no < (heap y).no) :
    (xs ++ b :: node :: ys).Pairwise fun a b => (heap a).no < (heap b).no := by
  rw [List.pairwise_append, List.pairwise_cons] at h ⊢
  obtain ⟨hxs, ⟨hb, hys⟩, hall⟩ := h
  refine ⟨hxs, ⟨?_, List.pairwise_cons.mpr ⟨hgt, hys⟩⟩, ?_⟩
  · intro y hy
    obtain rfl | hy := List.mem_cons.mp hy
    · exact hlt
    · exact hb y hy
  · intro x hx y hy
    obtain rfl | hy := List.mem_cons.mp hy
    · exact hall x hx y List.mem_cons_self
    · obtain rfl | hy := List.mem_cons.mp hy
      · exact Int.lt_trans (hall x hx b List.mem_cons_self) hlt
      · exact hall x hx y (List.mem_cons_of_mem _ hy)

variable {list : LinkedList} {nodes : List ℕ} {m : Entries}

/-- The number of the last node is the largest one. -/
theorem isLast_of_getLast? (h : Holds heap list.head nodes m) {b : ℕ} (hb : b ∈ nodes.getLast?) :
    m.IsLast (heap b).no := by
  have hmem : b ∈ nodes := List.mem_of_getLast? hb
  refine ⟨by rw [h.get hmem]; exact Option.some_ne_none _, ?_⟩
  intro k hk
  obtain ⟨names, hnames⟩ := Option.ne_none_iff_exists'.mp hk
  obtain ⟨a, ha, rfl, -⟩ := (h.entry_iff k names).mp hnames
  obtain ⟨xs, rfl⟩ := List.getLast?_eq_some_iff.mp hb
  rw [List.mem_append, List.mem_singleton] at ha
  obtain ha | rfl := ha
  · exact Int.le_of_lt ((List.pairwise_append.mp h.ascending).2.2 a ha b (List.mem_singleton.mpr rfl))
  · exact Int.le_refl _

theorem addByNo_returns (h : Holds heap list.head nodes m) (hnode : node ∉ nodes)
    (hnext : heap.next node = none) (hlast : ¬ m.IsLast (heap node).no) :
    ∃ heap' list' nodes', Returns (fun turns => list.addByNo turns heap node) (heap', list') ∧
      Holds heap' list'.head nodes' (if m (heap node).no = none then
        Function.update m (heap node).no (some (heap node).names) else m) ∧
      ∀ a ∈ nodes', a = node ∨ a ∈ nodes := by
  cases nodes with
  | nil =>
    have hnone : list.head = none := h.leads.head_eq
    have habsent : m (heap node).no = none := h.absent_iff.mpr fun a ha => absurd ha List.not_mem_nil
    refine ⟨heap, ⟨some node⟩, [node], ?_, ?_, fun a ha => Or.inl (List.mem_singleton.mp ha)⟩
    · simp only [addByNo, hnone]
      exact returns_pure _
    · rw [if_pos habsent]
      exact h.add (sameEntries_refl heap) habsent ⟨rfl, hnext⟩ (List.pairwise_singleton _ _)
        fun a => by simp
  | cons temp l =>
    have hhead : list.head = some temp := h.leads.1
    by_cases hfront : (heap node).no < (heap temp).no
    · have hfirst : ∀ b ∈ temp :: l, (heap node).no < (heap b).no := by
        intro b hb
        obtain rfl | hb := List.mem_cons.mp hb
        · exact hfront
        · exact Int.lt_trans hfront ((List.pairwise_cons.mp h.ascending).1 b hb)
      have habsent : m (heap node).no = none :=
        h.absent_iff.mpr fun a ha => Int.ne_of_gt (hfirst a ha)
      refine ⟨heap.setNext node (some temp), ⟨some node⟩, node :: temp :: l, ?_, ?_,
        fun a ha => List.mem_cons.mp ha⟩
      · simp only [addByNo, hhead, if_pos hfront]
        exact returns_pure _
      · rw [if_pos habsent]
        refine h.add (sameEntries_setNext _ _ _) habsent ?_
          (List.pairwise_cons.mpr ⟨hfirst, h.ascending⟩) fun a => List.mem_cons
        rw [next_setNext, ← hhead]
        exact h.leads.push hnode
    · have hleads : Leads heap.next (some temp) (temp :: l) none := hhead ▸ h.leads
      have hreturns : ∀ {heap'}, Returns (fun turns => addFrom node turns heap (some temp)) heap' →
          Returns (fun turns => list.addByNo turns heap node) (heap', list) := by
        intro heap' hr
        simp only [addByNo, hhead, if_neg hfront]
        exact hr.bind (returns_pure _)
      have hdifferent : ∀ b ∈ (temp :: l).getLast?, (heap b).no ≠ (heap node).no := by
        intro b hb heq
        exact hlast (heq ▸ isLast_of_getLast? h hb)
      obtain hfound | hadded := addFrom_returns hleads h.ascending hnode hnext
        (Int.not_lt.mp hfront) hdifferent
      · obtain ⟨b, hb, hno, hend⟩ := hfound
        have hpresent : m (heap node).no ≠ none := fun hnone => h.absent_iff.mp hnone b hb hno
        refine ⟨heap, list, temp :: l, hreturns hend, ?_, fun a ha => Or.inr ha⟩
        rw [if_neg hpresent]
        exact h
      · obtain ⟨xs, b, ys, heap', hsplit, hlt, hgt, hend, hnext', hsame⟩ := hadded
        have habsent : m (heap node).no = none := by
          refine h.absent_iff.mpr fun a ha => ?_
          rw [hsplit, List.mem_append, List.mem_cons] at ha
          obtain ha | rfl | ha := ha
          · have hbelow := (List.pairwise_append.mp (hsplit ▸ h.ascending)).2.2 a ha b
              List.mem_cons_self
            exact Int.ne_of_lt (Int.lt_trans hbelow hlt)
          · exact Int.ne_of_lt hlt
          · exact Int.ne_of_gt (hgt a ha)
        have hmem : ∀ a, a ∈ xs ++ b :: node :: ys ↔ a = node ∨ a ∈ temp :: l := by
          intro a
          rw [hsplit]
          simp only [List.mem_append, List.mem_cons]
          tauto
        refine ⟨heap', list, xs ++ b :: node :: ys, hreturns hend, ?_, fun a ha => (hmem a).mp ha⟩
        rw [if_pos habsent]
        refine h.add hsame habsent ?_ (ascending_insert (hsplit ▸ h.ascending) hlt hgt) hmem
        rw [hnext']
        exact (hsplit ▸ h.leads).insert (hsplit ▸ hnode)

/-! ## Updating -/

@[simp] theorem updateFrom_none (no : ℤ) (name nickName : Option String) (turns : ℕ) :
    updateFrom no name nickName turns heap none = .ok heap := by
  cases turns <;> rfl

/-- The loop writes to the first node with the number. -/
theorem updateFrom_returns (no : ℤ) {head : Option ℕ} {nodes : List ℕ}
    (hleads : Leads heap.next head nodes none) (name nickName : Option String) :
    (∃ a ∈ nodes, (heap a).no = no ∧
      Returns (fun turns => updateFrom no name nickName turns heap head)
        (heap.setNames a name nickName)) ∨
    (∀ a ∈ nodes, (heap a).no ≠ no) ∧
      Returns (fun turns => updateFrom no name nickName turns heap head) heap := by
  induction nodes generalizing head with
  | nil =>
    have hnone : head = none := hleads
    refine Or.inr ⟨fun a ha => absurd ha List.not_mem_nil, ?_⟩
    simp only [hnone, updateFrom_none]
    exact returns_pure _
  | cons temp l ih =>
    obtain ⟨rfl, hrest⟩ := hleads
    by_cases hno : (heap temp).no = no
    · refine Or.inl ⟨temp, List.mem_cons_self, hno, ?_⟩
      rw [← returns_succ]
      simp only [updateFrom, if_pos hno]
      exact returns_pure _
    · have hturn : ∀ {r}, Returns (fun turns =>
            updateFrom no name nickName turns heap (heap.next temp)) r →
          Returns (fun turns => updateFrom no name nickName turns heap (some temp)) r := by
        intro r hr
        rw [← returns_succ]
        simp only [updateFrom, if_neg hno]
        exact hr
      obtain ⟨a, ha, hano, hr⟩ | ⟨hall, hr⟩ := ih hrest
      · exact Or.inl ⟨a, List.mem_cons_of_mem _ ha, hano, hturn hr⟩
      · exact Or.inr ⟨List.forall_mem_cons.mpr ⟨hno, hall⟩, hturn hr⟩

theorem update_returns (h : Holds heap list.head nodes m) (no : ℤ) (name nickName : Option String) :
    ∃ heap', Returns (fun turns => list.update turns heap no name nickName) heap' ∧
      Holds heap' list.head nodes
        (if m no = none then m else Function.update m no (some (name, nickName))) := by
  have hsame : (fun turns => list.update turns heap no name nickName) =
      fun turns => updateFrom no name nickName turns heap list.head := by
    funext turns
    unfold update
    cases list.head with
    | none => exact (updateFrom_none no name nickName turns).symm
    | some temp => rfl
  rw [hsame]
  obtain ⟨a, ha, hno, hr⟩ | ⟨hall, hr⟩ := updateFrom_returns no h.leads name nickName
  · refine ⟨_, hr, ?_⟩
    rw [← hno, if_neg (by rw [h.get ha]; exact Option.some_ne_none _)]
    exact h.setNames ha name nickName
  · refine ⟨_, hr, ?_⟩
    rw [if_pos (h.absent_iff.mpr hall)]
    exact h

/-! ## Removing -/

/-- Behind a node the loop links out the first one with the number. -/
theorem removeFrom_returns {no : ℤ} {temp : ℕ} {l : List ℕ}
    (hleads : Leads heap.next (some temp) (temp :: l) none) :
    (∃ xs b c ys, temp :: l = xs ++ b :: c :: ys ∧ (heap c).no = no ∧
      Returns (fun turns => removeFrom no turns heap (some temp))
        ((heap.setNext b (heap.next c)).setNext c none, some c)) ∨
    (∀ a ∈ l, (heap a).no ≠ no) ∧
      Returns (fun turns => removeFrom no turns heap (some temp)) (heap, none) := by
  induction l generalizing temp with
  | nil =>
    have hend : (heap temp).next = none := hleads.2
    refine Or.inr ⟨fun a ha => absurd ha List.not_mem_nil, ?_⟩
    rw [← returns_succ]
    simp only [removeFrom, hend]
    exact returns_pure _
  | cons next l ih =>
    have hstep : (heap temp).next = some next := hleads.2.1
    by_cases hno : (heap next).no = no
    · refine Or.inl ⟨[], temp, next, l, rfl, hno, ?_⟩
      rw [← returns_succ]
      simp only [removeFrom, hstep, if_pos hno]
      exact returns_pure _
    · have hturn : ∀ {r}, Returns (fun turns => removeFrom no turns heap (some next)) r →
          Returns (fun turns => removeFrom no turns heap (some temp)) r := by
        intro r hr
        rw [← returns_succ]
        simp only [removeFrom, hstep, if_neg hno]
        exact hr
      obtain ⟨xs, b, c, ys, hsplit, hc, hr⟩ | ⟨hall, hr⟩ := ih ⟨rfl, hleads.2.2⟩
      · exact Or.inl ⟨temp :: xs, b, c, ys, by rw [hsplit, List.cons_append], hc, hturn hr⟩
      · exact Or.inr ⟨List.forall_mem_cons.mpr ⟨hno, hall⟩, hturn hr⟩

theorem remove_returns (h : Holds heap list.head nodes m) (no : ℤ) :
    ∃ heap' list' removed nodes',
      Returns (fun turns => list.remove turns heap no) (heap', list', removed) ∧
      Holds heap' list'.head nodes' (Function.update m no none) ∧ (∀ a ∈ nodes', a ∈ nodes) ∧
      removed.map (fun a => ((heap' a).no, (heap' a).names)) =
        (m no).map fun names => (no, names) := by
  have habsent : (∀ a ∈ nodes, (heap a).no ≠ no) → Function.update m no none = m := by
    intro hall
    rw [← h.absent_iff.mpr hall, Function.update_eq_self]
  cases nodes with
  | nil =>
    have hnone : list.head = none := h.leads.head_eq
    have hall : ∀ a ∈ ([] : List ℕ), (heap a).no ≠ no := fun a ha => absurd ha List.not_mem_nil
    refine ⟨heap, list, none, [], ?_, by rw [habsent hall]; exact h, fun a ha => ha, ?_⟩
    · simp only [remove, hnone]
      exact returns_pure _
    · rw [h.absent_iff.mpr hall]
      rfl
  | cons temp l =>
    have hhead : list.head = some temp := h.leads.1
    have hnodup := h.leads.nodup
    by_cases hno : (heap temp).no = no
    · refine ⟨heap, ⟨heap.next temp⟩, some temp, l, ?_, ?_,
        fun a ha => List.mem_cons_of_mem _ ha, ?_⟩
      · simp only [remove, hhead, if_pos hno]
        exact returns_pure _
      · refine h.drop (sameEntries_refl heap) List.mem_cons_self hno h.leads.2
          (List.sublist_cons_self _ _) fun b => ?_
        rw [List.mem_cons]
        have hnew := (List.nodup_cons.mp hnodup).1
        constructor
        · exact fun hb => ⟨fun heq => hnew (heq ▸ hb), Or.inr hb⟩
        · exact fun hb => hb.2.resolve_left hb.1
      · rw [← hno, h.get List.mem_cons_self]
        rfl
    · have hleads : Leads heap.next (some temp) (temp :: l) none := hhead ▸ h.leads
      have hreturns : ∀ {heap' removed},
          Returns (fun turns => removeFrom no turns heap (some temp)) (heap', removed) →
          Returns (fun turns => list.remove turns heap no) (heap', list, removed) := by
        intro heap' removed hr
        simp only [remove, hhead, if_neg hno]
        exact hr.bind (returns_pure _)
      obtain ⟨xs, b, c, ys, hsplit, hc, hr⟩ | ⟨hall, hr⟩ := removeFrom_returns hleads
      · have hc' : c ∈ temp :: l := by
          rw [hsplit]
          simp
        have hsub : (xs ++ b :: ys).Sublist (temp :: l) := by
          rw [hsplit]
          exact ((List.sublist_cons_self c ys).cons_cons b).append_left xs
        have hmem : ∀ a, a ∈ xs ++ b :: ys ↔ a ≠ c ∧ a ∈ temp :: l := by
          intro a
          rw [hsplit] at hnodup ⊢
          rw [List.append_cons, List.nodup_middle, List.nodup_cons] at hnodup
          have hnew := hnodup.1
          simp only [List.mem_append, List.mem_cons, List.not_mem_nil, or_false, not_or] at hnew ⊢
          constructor
          · intro ha
            refine ⟨?_, by tauto⟩
            intro heq
            rw [heq] at ha
            tauto
          · tauto
        have hsame : SameEntries heap ((heap.setNext b (heap.next c)).setNext c none) :=
          (sameEntries_setNext _ _ _).trans (sameEntries_setNext _ _ _)
        refine ⟨_, list, some c, xs ++ b :: ys, hreturns hr, ?_, fun a ha => ((hmem a).mp ha).2, ?_⟩
        · refine h.drop hsame hc' hc ?_ hsub hmem
          rw [next_setNext, next_setNext, leads_update fun hcmem => ((hmem c).mp hcmem).1 rfl]
          exact (hsplit ▸ h.leads).erase
        · rw [Option.map_some, (hsame c).1, (hsame c).2, hc, ← hc, h.get hc']
          rfl
      · have hall' : ∀ a ∈ temp :: l, (heap a).no ≠ no := List.forall_mem_cons.mpr ⟨hno, hall⟩
        refine ⟨heap, list, none, temp :: l, hreturns hr, ?_, fun a ha => ha, ?_⟩
        · rw [habsent hall']
          exact h
        · rw [h.absent_iff.mpr hall']
          rfl

end LinkedList

/-! ## Runs -/

namespace ListState

/-- The list of the state is the map, and no node of it is new. -/
def Represents (s : ListState) (m : Entries) : Prop :=
  ∃ nodes, Holds s.heap s.list.head nodes m ∧ ∀ a ∈ nodes, a < s.fresh

variable {s : ListState} {m : Entries}

theorem represents_start : Represents start fun _ => none := by
  refine ⟨[], ⟨rfl, List.Pairwise.nil, fun no names => ?_⟩, fun a ha => absurd ha List.not_mem_nil⟩
  simp

theorem heap_newNode {nodes : List ℕ} (hfresh : s.fresh ∉ nodes) (no : ℤ) (names : Names) {a : ℕ}
    (ha : a ∈ nodes) : (s.newNode no names).heap a = s.heap a := by
  refine Function.update_of_ne ?_ _ _
  exact fun heq => hfresh (heq ▸ ha)

/-- A new node changes nothing that the list refers to. -/
theorem holds_newNode {head : Option ℕ} {nodes : List ℕ} (h : Holds s.heap head nodes m)
    (hfresh : s.fresh ∉ nodes) (no : ℤ) (names : Names) :
    Holds (s.newNode no names).heap head nodes m where
  leads := by
    rw [newNode, next_update, leads_update hfresh]
    exact h.leads
  ascending := h.ascending.imp_of_mem fun ha hb hlt => by
    rwa [heap_newNode hfresh no names ha, heap_newNode hfresh no names hb]
  entry_iff k names' := by
    rw [h.entry_iff]
    refine exists_congr fun a => and_congr_right fun ha => ?_
    rw [heap_newNode hfresh no names ha]

/-- Only an addition of the number of the last node is not as it should be. -/
def Allowed (m : Entries) : ListCall → Prop
  | .addByNo no _ => ¬ m.IsLast no
  | .update _ _ | .remove _ => True

theorem call_returns (h : s.Represents m) {c : ListCall} (hc : Allowed m c) :
    ∃ s', Returns (fun turns => s.call turns c) (s', (m.call c).2) ∧ s'.Represents (m.call c).1 := by
  obtain ⟨nodes, hholds, hfresh⟩ := h
  cases c with
  | addByNo no names =>
    have hnew : s.fresh ∉ nodes := fun hmem => Nat.lt_irrefl _ (hfresh _ hmem)
    have hnode : (s.newNode no names).heap s.fresh = ⟨no, names.1, names.2, none, none⟩ :=
      Function.update_self _ _ _
    have hnext : (s.newNode no names).heap.next s.fresh = none := by rw [Heap.next, hnode]
    obtain ⟨heap', list', nodes', hr, hholds', hsub⟩ := LinkedList.addByNo_returns
      (holds_newNode hholds hnew no names) hnew hnext (by rw [hnode]; exact hc)
    refine ⟨{ s.newNode no names with heap := heap', list := list' }, hr.bind (returns_pure _),
      nodes', ?_, ?_⟩
    · rw [hnode] at hholds'
      exact hholds'
    · intro a ha
      obtain rfl | hold := hsub a ha
      · exact Nat.lt_succ_self _
      · exact Nat.lt_succ_of_lt (hfresh a hold)
  | update no names =>
    obtain ⟨heap', hr, hholds'⟩ := LinkedList.update_returns hholds no names.1 names.2
    refine ⟨{ s with heap := heap' }, ?_, nodes, hholds', hfresh⟩
    exact hr.bind (returns_pure _)
  | remove no =>
    obtain ⟨heap', list', removed, nodes', hr, hholds', hsub, hremoved⟩ :=
      LinkedList.remove_returns hholds no
    refine ⟨{ s with heap := heap', list := list' }, ?_, nodes', hholds',
      fun a ha => hfresh a (hsub a ha)⟩
    simp only [Entries.call, ← hremoved]
    exact hr.bind (returns_pure _)

/-- The calls return, with the answers of the map, and the list is then the map. -/
def IsMap (calls : List ListCall) : Prop :=
  ∃ s', Returns (fun turns => answersM (call turns) start calls)
      (s', (answers Entries.call (fun _ => none) calls).2) ∧
    s'.Represents (answers Entries.call (fun _ => none) calls).1

/-- If no call adds the number of the last node once more, the list is a map in the order of the
numbers. -/
theorem isMap_of_allowed (calls : List ListCall)
    (h : Along (fun m c => (Entries.call m c).1) Allowed (fun _ => none) calls) : IsMap calls := by
  have hcall : ∀ s m c, Represents s m → Allowed m c →
      ∃ s', Returns (fun turns => s.call turns c) (s', (Entries.call m c).2) ∧
        Represents s' (Entries.call m c).1 := fun _ _ _ hrep hc => call_returns hrep hc
  exact returns_answers hcall represents_start h

/-- Numbers in no order, one of them twice. -/
theorem isMap_of_allowed_five :
    IsMap [.addByNo 2 (none, none), .addByNo 4 (none, none), .addByNo 3 (none, none),
      .addByNo 3 (none, none), .remove 4] := by
  refine isMap_of_allowed _ ⟨?_, ?_, ?_, ?_, trivial, trivial⟩
  · exact fun hlast => hlast.1 rfl
  · exact fun hlast => hlast.1 rfl
  · exact fun hlast => hlast.1 rfl
  · exact fun hlast => absurd (hlast.2 4 (by decide)) (by decide)

def answersOf : Except String (ListState × List ListAnswer) → List ListAnswer
  | .ok (_, as) => as
  | .error _ => []

/-- A number that is added twice is removed twice. -/
theorem not_isMap : ¬ ∀ calls, IsMap calls := by
  intro h
  obtain ⟨s', ⟨n, hn⟩, -⟩ :=
    h [.addByNo 1 (none, none), .addByNo 1 (none, none), .remove 1, .remove 1]
  have hanswers := congrArg answersOf (hn (n + 10) (Nat.le_add_right _ _))
  have htwice : [ListAnswer.done, .done, .removed (some (1, none, none)),
      .removed (some (1, none, none))] = [.done, .done, .removed (some (1, none, none)),
      .removed none] := hanswers
  revert htwice
  decide

end ListState

end BigPlan.Algorithm
