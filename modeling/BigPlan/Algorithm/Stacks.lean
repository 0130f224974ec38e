import BigPlan.Lib.Java
import BigPlan.Lib.Runs

/-!
# The two stacks

The stack on an array answers as a last-in first-out stack of bounded size does. The stack on a
chain of nodes never counts what it holds, so it finds itself full only if its capacity is 0, and
answers so until it is asked for room while it holds as many elements as it may.
-/
namespace BigPlan.Algorithm

open Lib.Java Lib.Runs

inductive StackCall (α : Type) where
  | push (e : α)
  | pop
  | isEmpty
  | isFull
  deriving DecidableEq, Repr

/-- What a call returns, or the message of what it throws. -/
inductive StackAnswer (α : Type) where
  | done
  | element (e : α)
  | flag (b : Bool)
  | thrown (message : String)
  deriving DecidableEq, Repr

/-! ## `ArrayStack` -/

structure ArrayStack where
  top : ℤ
  maxSize : ℕ
  stack : List JInt
  deriving DecidableEq, Repr

namespace ArrayStack

def new (maxSize : ℕ) : ArrayStack := ⟨-1, maxSize, List.replicate maxSize 0⟩

def isEmpty (s : ArrayStack) : Bool := s.top == -1

def isFull (s : ArrayStack) : Bool := s.top + 1 == s.maxSize

/-- `stack[this.top] = e`. -/
def store (s : ArrayStack) (e : JInt) : ArrayStack × StackAnswer JInt :=
  if 0 ≤ s.top ∧ s.top < s.stack.length then
    ({ s with stack := s.stack.set s.top.toNat e }, .done)
  else (s, .thrown "ArrayIndexOutOfBounds")

def push (s : ArrayStack) (e : JInt) : ArrayStack × StackAnswer JInt :=
  if s.isFull then (s, .thrown "is full!")
  else store { s with top := s.top + 1 } e

def pop (s : ArrayStack) : ArrayStack × StackAnswer JInt :=
  if s.isEmpty then (s, .thrown "is empty!")
  else if 0 ≤ s.top then
    match s.stack[s.top.toNat]? with
    | some popE =>
      ({ s with stack := s.stack.set s.top.toNat 0, top := s.top - 1 }, .element popE)
    | none => (s, .thrown "ArrayIndexOutOfBounds")
  else (s, .thrown "ArrayIndexOutOfBounds")

def call (s : ArrayStack) : StackCall JInt → ArrayStack × StackAnswer JInt
  | .push e => s.push e
  | .pop => s.pop
  | .isEmpty => (s, .flag s.isEmpty)
  | .isFull => (s, .flag s.isFull)

end ArrayStack

/-! ## `LinkedListStack` -/

/-- A reference to a node. Nodes are linked once, before anything else refers to them. -/
inductive StackNode (α : Type) where
  | null
  | node (data : α) (next : StackNode α)
  deriving DecidableEq, Repr

def StackNode.toList {α : Type} : StackNode α → List α
  | null => []
  | node data next => data :: next.toList

structure LinkedListStack (α : Type) where
  top : StackNode α
  maxSize : ℕ
  size : ℕ
  deriving DecidableEq, Repr

namespace LinkedListStack

variable {α : Type}

def new (maxSize : ℕ) : LinkedListStack α := ⟨.null, maxSize, 0⟩

def isEmpty (s : LinkedListStack α) : Bool :=
  match s.top with
  | .null => true
  | .node _ _ => false

def isFull (s : LinkedListStack α) : Bool := s.size == s.maxSize

/-- A first node has no next node, just as a node in front of `null`. -/
def push (s : LinkedListStack α) (e : α) : LinkedListStack α × StackAnswer α :=
  if s.isFull then (s, .thrown "is full!")
  else ({ s with top := .node e s.top }, .done)

def pop (s : LinkedListStack α) : LinkedListStack α × StackAnswer α :=
  match s.top with
  | .null => (s, .thrown "is empty!")
  | .node data next => ({ s with top := next }, .element data)

def call (s : LinkedListStack α) : StackCall α → LinkedListStack α × StackAnswer α
  | .push e => s.push e
  | .pop => s.pop
  | .isEmpty => (s, .flag s.isEmpty)
  | .isFull => (s, .flag s.isFull)

end LinkedListStack

/-! ## What a stack is -/

/-- The elements from the top down. -/
structure Lifo (α : Type) where
  maxSize : ℕ
  elements : List α
  deriving DecidableEq, Repr

namespace Lifo

variable {α : Type}

def new (maxSize : ℕ) : Lifo α := ⟨maxSize, []⟩

def call (q : Lifo α) : StackCall α → Lifo α × StackAnswer α
  | .push e =>
    if q.elements.length = q.maxSize then (q, .thrown "is full!")
    else ({ q with elements := e :: q.elements }, .done)
  | .pop =>
    match q.elements with
    | [] => (q, .thrown "is empty!")
    | e :: elements => ({ q with elements := elements }, .element e)
  | .isEmpty => (q, .flag (q.elements.length == 0))
  | .isFull => (q, .flag (q.elements.length == q.maxSize))

end Lifo

/-- A call that throws leaves the stack as it was. -/
def Kept {σ α : Type} (call : σ → StackCall α → σ × StackAnswer α) (s : σ) (c : StackCall α) :
    Prop :=
  ∀ message, (call s c).2 = .thrown message → (call s c).1 = s

/-! ## The array -/

namespace ArrayStack

variable {s : ArrayStack} {q : Lifo JInt}

/-- The elements lie in the array from the bottom up. -/
structure Represents (s : ArrayStack) (q : Lifo JInt) : Prop where
  maxSize_eq : s.maxSize = q.maxSize
  length_stack : s.stack.length = q.maxSize
  length_le : q.elements.length ≤ q.maxSize
  top_eq : s.top + 1 = q.elements.length
  take_stack : s.stack.take q.elements.length = q.elements.reverse

theorem represents_new (n : ℕ) : Represents (new n) (.new n) where
  maxSize_eq := rfl
  length_stack := List.length_replicate
  length_le := Nat.zero_le _
  top_eq := rfl
  take_stack := rfl

theorem Represents.isEmpty_eq (h : Represents s q) : s.isEmpty = (q.elements.length == 0) := by
  have htop := h.top_eq
  rw [isEmpty, Bool.eq_iff_iff, beq_iff_eq, beq_iff_eq]
  omega

theorem Represents.isFull_eq (h : Represents s q) :
    s.isFull = (q.elements.length == q.maxSize) := by
  rw [isFull, h.top_eq, h.maxSize_eq, Bool.eq_iff_iff, beq_iff_eq, beq_iff_eq]
  omega

theorem Represents.call_push (h : Represents s q) (e : JInt) :
    Represents (s.push e).1 (q.call (.push e)).1 ∧ (s.push e).2 = (q.call (.push e)).2 ∧
      Kept call s (.push e) := by
  have htop := h.top_eq
  unfold Kept
  simp only [call, push, Lifo.call, h.isFull_eq, beq_iff_eq]
  by_cases hfull : q.elements.length = q.maxSize
  · rw [if_pos hfull, if_pos hfull]
    exact ⟨h, rfl, fun _ _ => rfl⟩
  · have hlt : q.elements.length < s.stack.length := by
      rw [h.length_stack]
      exact Nat.lt_of_le_of_ne h.length_le hfull
    have hrange : 0 ≤ s.top + 1 ∧ s.top + 1 < s.stack.length := by omega
    rw [if_neg hfull, if_neg hfull]
    simp only [store, if_pos hrange]
    refine ⟨⟨h.maxSize_eq, ?_, ?_, ?_, ?_⟩, trivial, fun _ hthrown => by cases hthrown⟩
    · rw [List.length_set]
      exact h.length_stack
    · rw [List.length_cons]
      exact Nat.lt_of_le_of_ne h.length_le hfull
    · rw [List.length_cons]
      simp only
      omega
    · have hindex : (s.top + 1).toNat = q.elements.length := by omega
      simp only [hindex, List.length_cons, List.reverse_cons]
      rw [List.take_add_one, List.take_set_of_le (Nat.le_refl _), h.take_stack,
        List.getElem?_set_self hlt, Option.toList_some]

theorem Represents.call_pop (h : Represents s q) :
    Represents s.pop.1 (q.call .pop).1 ∧ s.pop.2 = (q.call .pop).2 ∧ Kept call s .pop := by
  obtain ⟨maxSize, elements⟩ := q
  have htop := h.top_eq
  unfold Kept
  simp only [call, pop, h.isEmpty_eq, Lifo.call, beq_iff_eq]
  cases elements with
  | nil => exact ⟨h, rfl, fun _ _ => rfl⟩
  | cons e elements =>
    have hlength := h.length_stack
    have hle := h.length_le
    have htake := h.take_stack
    simp only [List.length_cons, List.reverse_cons] at htop hle htake hlength
    have hlt : elements.length < s.stack.length := by omega
    have hindex : s.top.toNat = elements.length := by omega
    rw [List.take_add_one, List.getElem?_eq_getElem hlt, Option.toList_some] at htake
    obtain ⟨hrest, hlast⟩ := List.append_inj' htake rfl
    have htopE : s.stack[elements.length]? = some e := by
      rw [List.getElem?_eq_getElem hlt, List.singleton_inj.mp hlast]
    rw [if_neg (by rw [List.length_cons]; omega), if_pos (by omega), hindex, htopE]
    refine ⟨⟨h.maxSize_eq, ?_, ?_, ?_, ?_⟩, rfl, fun _ hthrown => by cases hthrown⟩
    · rw [List.length_set]
      exact h.length_stack
    · exact Nat.le_of_succ_le hle
    · simp only
      omega
    · rw [List.take_set_of_le (Nat.le_refl _)]
      exact hrest

theorem Represents.call (h : Represents s q) (c : StackCall JInt) :
    Represents (s.call c).1 (q.call c).1 ∧ (s.call c).2 = (q.call c).2 ∧
      Kept ArrayStack.call s c := by
  cases c with
  | push e => exact h.call_push e
  | pop => exact h.call_pop
  | isEmpty => exact ⟨h, congrArg StackAnswer.flag h.isEmpty_eq, fun _ _ => rfl⟩
  | isFull => exact ⟨h, congrArg StackAnswer.flag h.isFull_eq, fun _ _ => rfl⟩

end ArrayStack

/-! ## The chain of nodes -/

namespace LinkedListStack

variable {α : Type} {s : LinkedListStack α} {q : Lifo α}

/-- The stack has never counted. -/
structure Represents (s : LinkedListStack α) (q : Lifo α) : Prop where
  maxSize_eq : s.maxSize = q.maxSize
  size_eq : s.size = 0
  elements_eq : s.top.toList = q.elements
  length_le : q.elements.length ≤ q.maxSize

/-- A call that asks for room does so while there is some, or where there never is any. -/
def RoomFor (s : LinkedListStack α) : StackCall α → Prop
  | .push _ | .isFull => s.maxSize = 0 ∨ s.top.toList.length < s.maxSize
  | .pop | .isEmpty => True

theorem represents_new (n : ℕ) : Represents (new n : LinkedListStack α) (.new n) where
  maxSize_eq := rfl
  size_eq := rfl
  elements_eq := rfl
  length_le := Nat.zero_le _

/-- Where a node may be put the stack does not find itself full. -/
theorem Represents.isFull_eq (h : Represents s q) : s.isFull = (q.maxSize == 0) := by
  rw [isFull, h.size_eq, h.maxSize_eq, Bool.eq_iff_iff, beq_iff_eq, beq_iff_eq]
  exact eq_comm

theorem Represents.isEmpty_eq (h : Represents s q) : s.isEmpty = (q.elements.length == 0) := by
  rw [← h.elements_eq]
  unfold isEmpty
  cases s.top <;> rfl

theorem Represents.call_pop (h : Represents s q) :
    Represents s.pop.1 (q.call .pop).1 ∧ s.pop.2 = (q.call .pop).2 := by
  obtain ⟨top, maxSize, size⟩ := s
  obtain ⟨maxSize', elements⟩ := q
  have helements := h.elements_eq
  cases top with
  | null =>
    simp only [StackNode.toList] at helements
    subst helements
    exact ⟨h, rfl⟩
  | node data next =>
    simp only [StackNode.toList] at helements
    subst helements
    exact ⟨⟨h.maxSize_eq, h.size_eq, rfl, Nat.le_of_succ_le h.length_le⟩, rfl⟩

/-- With room, or where there is never any, the stack finds itself full as it should. -/
theorem Represents.isFull_of_room (h : Represents s q)
    (hroom : q.maxSize = 0 ∨ q.elements.length < q.maxSize) :
    s.isFull = (q.elements.length == q.maxSize) := by
  have hle := h.length_le
  rw [h.isFull_eq, Bool.eq_iff_iff, beq_iff_eq, beq_iff_eq]
  omega

theorem Represents.call_push (h : Represents s q) (e : α)
    (hroom : q.maxSize = 0 ∨ q.elements.length < q.maxSize) :
    Represents (s.push e).1 (q.call (.push e)).1 ∧ (s.push e).2 = (q.call (.push e)).2 := by
  have hle := h.length_le
  simp only [push, Lifo.call, h.isFull_of_room hroom, beq_iff_eq]
  by_cases hfull : q.elements.length = q.maxSize
  · rw [if_pos hfull, if_pos hfull]
    exact ⟨h, rfl⟩
  · rw [if_neg hfull, if_neg hfull]
    exact ⟨⟨h.maxSize_eq, h.size_eq, congrArg (List.cons e) h.elements_eq,
      Nat.lt_of_le_of_ne hle hfull⟩, rfl⟩

theorem Represents.call (h : Represents s q) {c : StackCall α} (hroom : s.RoomFor c) :
    Represents (s.call c).1 (q.call c).1 ∧ (s.call c).2 = (q.call c).2 := by
  cases c with
  | push e =>
    simp only [RoomFor, h.elements_eq, h.maxSize_eq] at hroom
    exact h.call_push e hroom
  | pop => exact h.call_pop
  | isEmpty => exact ⟨h, congrArg StackAnswer.flag h.isEmpty_eq⟩
  | isFull =>
    simp only [RoomFor, h.elements_eq, h.maxSize_eq] at hroom
    exact ⟨h, congrArg StackAnswer.flag (h.isFull_of_room hroom)⟩

/-- Without room the stack is full, and does not find itself so. -/
theorem Represents.full_of_no_room (h : Represents s q)
    (hroom : ¬ (s.maxSize = 0 ∨ s.top.toList.length < s.maxSize)) :
    q.elements.length = q.maxSize ∧ s.isFull = false := by
  have hle := h.length_le
  rw [h.elements_eq, h.maxSize_eq] at hroom
  rw [h.isFull_eq, beq_eq_false_iff_ne]
  omega

/-- A full stack takes another element, and does not say that it is full. -/
theorem Represents.call_ne (h : Represents s q) {c : StackCall α} (hroom : ¬ s.RoomFor c) :
    (s.call c).2 ≠ (q.call c).2 := by
  cases c with
  | push e =>
    obtain ⟨hfull, hnever⟩ := h.full_of_no_room hroom
    simp only [LinkedListStack.call, push, hnever, Lifo.call, if_pos hfull]
    intro heq
    cases heq
  | pop => exact absurd trivial hroom
  | isEmpty => exact absurd trivial hroom
  | isFull =>
    obtain ⟨hfull, hnever⟩ := h.full_of_no_room hroom
    simp only [LinkedListStack.call, hnever, Lifo.call, hfull, beq_self_eq_true]
    intro heq
    cases heq

theorem kept_call (s : LinkedListStack α) (c : StackCall α) : Kept LinkedListStack.call s c := by
  intro message hthrown
  cases c with
  | push e =>
    simp only [LinkedListStack.call, push] at hthrown ⊢
    split at hthrown
    · rename_i hfull
      rw [if_pos hfull]
    · cases hthrown
  | pop =>
    simp only [LinkedListStack.call, pop] at hthrown ⊢
    cases htop : s.top with
    | null => rfl
    | node data next =>
      rw [htop] at hthrown
      cases hthrown
  | isEmpty => rfl
  | isFull => rfl

end LinkedListStack

/-! ## One for the other -/

/-- Both stacks of the capacity give the results of the bounded stack for the calls, and a call
that throws leaves them as they were. -/
structure Interchangeable (n : ℕ) (calls : List (StackCall JInt)) : Prop where
  array : (answers ArrayStack.call (.new n) calls).2 = (answers Lifo.call (.new n) calls).2
  chain : (answers LinkedListStack.call (.new n) calls).2 = (answers Lifo.call (.new n) calls).2
  array_kept :
    Along (fun s c => (ArrayStack.call s c).1) (Kept ArrayStack.call) (.new n) calls
  chain_kept :
    Along (fun s c => (LinkedListStack.call s c).1) (Kept LinkedListStack.call) (.new n) calls

/-- The array stack is the bounded stack. -/
theorem answers_arrayStack (n : ℕ) (calls : List (StackCall JInt)) :
    (answers ArrayStack.call (.new n) calls).2 = (answers Lifo.call (.new n) calls).2 :=
  (answers_of_simulation (fun _ _ c h => ⟨(h.call c).1, (h.call c).2.1⟩)
    (ArrayStack.represents_new n) calls).2

theorem kept_arrayStack (n : ℕ) (calls : List (StackCall JInt)) :
    Along (fun s c => (ArrayStack.call s c).1) (Kept ArrayStack.call) (.new n) calls := by
  refine along_of_invariant (P := fun s => ∃ q, ArrayStack.Represents s q) ?_ ?_
    ⟨_, ArrayStack.represents_new n⟩ calls
  · intro s c hs
    obtain ⟨q, h⟩ := hs
    exact (h.call c).2.2
  · intro s c hs
    obtain ⟨q, h⟩ := hs
    exact ⟨_, (h.call c).1⟩

/-- The chain gives the results of the bounded stack as long as no call asks it for room that
it does not have. -/
theorem answers_linkedListStack_iff {α : Type} (n : ℕ) (calls : List (StackCall α)) :
    (answers LinkedListStack.call (.new n) calls).2 = (answers Lifo.call (.new n) calls).2 ↔
      Along (fun s c => (LinkedListStack.call s c).1) LinkedListStack.RoomFor (.new n) calls :=
  answers_eq_iff_along (fun _ _ _ h hroom => h.call hroom) (fun _ _ _ h hroom => h.call_ne hroom)
    (LinkedListStack.represents_new n) calls

/-- The stacks are interchangeable for the calls if and only if the capacity is 0 or no element is
pushed, and no one asks whether the stack is full, while it holds as many as it may. -/
theorem interchangeable_iff (n : ℕ) (calls : List (StackCall JInt)) :
    Interchangeable n calls ↔
      Along (fun s c => (LinkedListStack.call s c).1) LinkedListStack.RoomFor (.new n) calls := by
  rw [← answers_linkedListStack_iff]
  constructor
  · exact Interchangeable.chain
  · intro hchain
    exact ⟨answers_arrayStack n calls, hchain, kept_arrayStack n calls,
      along_of_forall LinkedListStack.kept_call _ calls⟩

/-- Two elements in a stack of one. -/
theorem not_interchangeable : ¬ ∀ n calls, Interchangeable n calls := by
  intro h
  have hchain := (h 1 [.push 5, .push 6]).chain
  revert hchain
  decide

end BigPlan.Algorithm
