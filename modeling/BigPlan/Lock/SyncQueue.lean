import BigPlan.Lock.Inspection

/-!
# What is appended to the queue

`enq` links a node in behind the tail, with a new node before it if there is none yet. It does not
find out whether the node is on the queue already. If it is, what the tail refers to never ends.
-/
namespace BigPlan.QueuedSynchronizer

open Lib Lib.Chain Program Node

variable {T : Type} {m m' : Memory T} {l s : List Ref} {a p node : Ref}

namespace Memory

/-- The queue of the synchronizer has these nodes, from the tail to the head. -/
structure SyncQueue (m : Memory T) (s : List Ref) : Prop where
  leads : Leads m.prev (m.field .tail) s none
  head : m.field .head = s.getLast?

/-- A queue that was empty gets a node. -/
def opened (m : Memory T) : Memory T :=
  if m.field .tail = none then
    ((m.newNode none 0 none).set .head (some m.fresh)).set .tail (some m.fresh)
  else m

/-- The tail after that. -/
def last (m : Memory T) : Ref := (m.field .tail).getD m.fresh

/-- The node becomes the tail, behind the other one. -/
def behind (m : Memory T) (p node : Ref) : Memory T :=
  { ((m.set (.prev node) (some p)).set .tail (some node)).set (.next p) (some node) with
    appended := node :: m.appended }

/-- What `enq` makes of the memory. -/
def enqueue (m : Memory T) (node : Ref) : Memory T := m.opened.behind m.last node

/-- The nodes behind which a node is appended. -/
def base (m : Memory T) (s : List Ref) : List Ref := if s = [] then [m.fresh] else s

/-! ## Fields -/

theorem SyncQueue.tail_eq (h : m.SyncQueue s) : m.field .tail = s.head? := h.leads.head_eq

theorem SyncQueue.tail_eq_none (h : m.SyncQueue s) : m.field .tail = none ↔ s = [] := by
  rw [h.tail_eq, List.head?_eq_none_iff]

/-- The synchronizer has no head without a tail. -/
def Headed (m : Memory T) : Prop := m.field .tail = none → m.field .head = none

theorem SyncQueue.headed (h : m.SyncQueue s) : m.Headed := by
  intro htail
  obtain rfl := h.tail_eq_none.mp htail
  exact h.head

theorem tail_opened (m : Memory T) : m.opened.field .tail = some m.last := by
  unfold opened last
  split
  · rename_i hnone
    simp [hnone]
  · rename_i hsome
    obtain ⟨t, ht⟩ := Option.ne_none_iff_exists'.mp hsome
    simp [ht]

theorem prev_opened (m : Memory T) : m.opened.prev = m.prev := by
  funext b
  unfold opened
  split
  · simp [prev]
  · rfl

theorem prev_enqueue (m : Memory T) (node : Ref) :
    (m.enqueue node).prev = Function.update m.prev node (some m.last) := by
  funext b
  rw [← m.prev_opened]
  simp [enqueue, behind, prev, set, Function.update_apply]

theorem tail_enqueue (m : Memory T) (node : Ref) : (m.enqueue node).field .tail = some node := by
  simp [enqueue, behind, set]

theorem head_enqueue (m : Memory T) (node : Ref) :
    (m.enqueue node).field .head = m.opened.field .head := by
  simp [enqueue, behind, set]

theorem headed_enqueue (m : Memory T) (node : Ref) : (m.enqueue node).Headed := by
  intro htail
  rw [tail_enqueue] at htail
  cases htail

theorem appended_enqueue (m : Memory T) (node : Ref) :
    (m.enqueue node).appended = node :: m.appended := by
  unfold enqueue behind opened
  split <;> rfl

theorem fresh_le_enqueue (m : Memory T) (node : Ref) : m.fresh ≤ (m.enqueue node).fresh := by
  show m.fresh ≤ m.opened.fresh
  unfold opened
  split
  · exact Nat.le_succ m.fresh
  · exact Nat.le_refl m.fresh

/-! ## The queue -/

theorem SyncQueue.last_eq (h : m.SyncQueue s) : (m.base s).head? = some m.last := by
  unfold base last
  rw [h.tail_eq]
  cases s with
  | nil => rfl
  | cons a s => rfl

theorem SyncQueue.opened (h : m.SyncQueue s) (hfresh : m.prev m.fresh = none) :
    m.opened.SyncQueue (m.base s) := by
  unfold base
  split
  · rename_i hnil
    have htail : m.field .tail = none := h.tail_eq_none.mpr hnil
    refine ⟨?_, ?_⟩
    · rw [prev_opened, tail_opened, last, htail]
      exact ⟨rfl, hfresh⟩
    · simp [Memory.opened, htail]
  · rename_i hne
    have hsame : m.opened = m := if_neg (mt h.tail_eq_none.mp hne)
    rw [hsame]
    exact h

/-- A node that is not on the queue is put before it in this order. -/
theorem SyncQueue.enqueue (h : m.SyncQueue s) (hfresh : m.prev m.fresh = none)
    (hnot : node ∉ m.base s) : (m.enqueue node).SyncQueue (node :: m.base s) := by
  have hopened := h.opened hfresh
  have hleads := hopened.leads
  rw [prev_opened, tail_opened] at hleads
  refine ⟨?_, ?_⟩
  · rw [tail_enqueue, prev_enqueue]
    exact hleads.push hnot
  · rw [head_enqueue, hopened.head, List.getLast?_cons]
    obtain ⟨b, hb⟩ : ∃ b, (m.base s).getLast? = some b := by
      apply Option.isSome_iff_exists.mp
      rw [List.getLast?_isSome]
      intro hnil
      rw [hnil] at hleads
      cases hleads
    rw [hb]
    rfl

/-- A node that is on the queue is not found to be so. -/
theorem SyncQueue.endless (h : m.SyncQueue s) (hmem : node ∈ s) :
    Endless (m.enqueue node).prev ((m.enqueue node).field .tail) := by
  have hsome : m.field .tail = some m.last := by
    rw [last, h.tail_eq]
    cases s with
    | nil => exact absurd hmem List.not_mem_nil
    | cons a s => rfl
  rw [tail_enqueue, prev_enqueue, ← hsome]
  exact h.leads.endless hmem

theorem endless_enqueue (h : Endless m.prev (m.field .tail)) (node : Ref) :
    Endless (m.enqueue node).prev ((m.enqueue node).field .tail) := by
  have hsome : m.field .tail = some m.last := by
    obtain ⟨S, ⟨b, -, hb⟩, -⟩ := h
    rw [last, hb]
    rfl
  rw [tail_enqueue, prev_enqueue, ← hsome]
  exact h.push node

end Memory

/-! ## The methods -/

variable [DecidableEq T] {t : T} {input : Input}

theorem compareAndSet_runs {field : Field} {expect update : Option Ref} {purpose : Purpose}
    (h : m.field field = expect) :
    Runs t input m (op (.compareAndSet field expect update purpose))
      { m.set field update with appended := Memory.appends update purpose ++ m.appended } true := by
  have hperform : m.perform t input (.compareAndSet field expect update purpose) =
      ({ m.set field update with appended := Memory.appends update purpose ++ m.appended },
        true) := if_pos h
  have hruns : Runs t input m (op (.compareAndSet field expect update purpose))
      (m.perform t input (.compareAndSet field expect update purpose)).1
      (m.perform t input (.compareAndSet field expect update purpose)).2 := returns_lift
  rwa [hperform] at hruns

/-- A turn of `enq` with a tail. -/
theorem enq_runs_of_tail (h : m.field .tail = some p) :
    Runs t input m (enq node) (m.behind p node) p := by
  refine returns_forever_inr (returns_then returns_lift ?_)
  have hread : (m.perform t input (.get .tail)).2 = some p := h
  rw [hread]
  refine returns_then returns_lift (returns_then (compareAndSet_runs ?_) ?_)
  · show (m.set (.prev node) (some p)).field .tail = some p
    simpa using h
  · exact returns_then returns_lift returns_pure

theorem enq_runs (h : m.Headed) : Runs t input m (enq node) (m.enqueue node) m.last := by
  cases htail : m.field .tail with
  | some p =>
    have hlast : m.last = p := by simp [Memory.last, htail]
    have hopened : m.opened = m := by simp [Memory.opened, htail]
    rw [Memory.enqueue, hopened, hlast]
    exact enq_runs_of_tail htail
  | none =>
    have hopened : m.opened =
        ((m.newNode none 0 none).set .head (some m.fresh)).set .tail (some m.fresh) :=
      if_pos htail
    have hrest : Runs t input m.opened (enq node) (m.enqueue node) m.last :=
      enq_runs_of_tail m.tail_opened
    refine returns_forever_inl (returns_then returns_lift ?_) hrest
    have hread : (m.perform t input (.get .tail)).2 = none := htail
    rw [hread, hopened]
    refine returns_then returns_lift (returns_then (compareAndSet_runs ?_) ?_)
    · show (m.newNode none 0 none).field .head = none
      simpa using h htail
    · exact returns_then returns_lift (returns_then returns_lift returns_pure)

/-! ## The nodes on the queue -/

/-- The queue has these nodes, which have been allocated, and no other node has one before it. -/
structure Memory.Lined (m : Memory T) (s : List Ref) : Prop where
  sync : m.SyncQueue s
  allocated : m.Allocated s
  outside : ∀ a ∉ s, m.prev a = none

namespace Memory.Lined

omit [DecidableEq T]

theorem fresh_notMem (h : m.Lined s) : m.fresh ∉ s := fun hmem =>
  Nat.lt_irrefl m.fresh (h.allocated m.fresh hmem)

theorem notMem_base (h : a < m.fresh) (hnot : a ∉ s) : a ∉ m.base s := by
  unfold base
  split
  · intro hmem
    rw [List.mem_singleton.mp hmem] at h
    exact Nat.lt_irrefl m.fresh h
  · exact hnot

theorem subset_base : s ⊆ m.base s := by
  unfold base
  split
  · rename_i hnil
    rw [hnil]
    exact List.nil_subset _
  · exact List.Subset.refl s

theorem enqueue (h : m.Lined s) (hnode : node < m.fresh) (hnot : node ∉ s) :
    (m.enqueue node).Lined (node :: m.base s) := by
  refine ⟨?_, fun a ha => ?_, fun a ha => ?_⟩
  · exact h.sync.enqueue (h.outside m.fresh h.fresh_notMem) (notMem_base hnode hnot)
  · show a < m.opened.fresh
    unfold opened
    obtain rfl | ha := List.mem_cons.mp ha
    · split
      · exact Nat.lt_succ_of_lt hnode
      · exact hnode
    · unfold base at ha
      split at ha
      · rename_i hnil
        rw [if_pos (h.sync.tail_eq_none.mpr hnil), List.mem_singleton.mp ha]
        exact Nat.lt_succ_self m.fresh
      · rename_i hne
        rw [if_neg (mt h.sync.tail_eq_none.mp hne)]
        exact h.allocated a ha
  · have hane : a ≠ node := fun heq => ha (heq ▸ List.mem_cons_self)
    rw [prev_enqueue, Function.update_of_ne hane]
    exact h.outside a fun hmem => ha (List.mem_cons_of_mem node (subset_base hmem))

theorem nodup (h : m.Lined s) : s.Nodup := h.sync.leads.nodup

/-- Only what the fields say matters. -/
theorem congr (h : m.Lined s) (htail : m'.field .tail = m.field .tail)
    (hhead : m'.field .head = m.field .head) (hprev : m'.prev = m.prev)
    (hfresh : m.fresh ≤ m'.fresh) : m'.Lined s := by
  refine ⟨⟨?_, ?_⟩, fun a ha => Nat.lt_of_lt_of_le (h.allocated a ha) hfresh, ?_⟩
  · rw [htail, hprev]
    exact h.sync.leads
  · rw [hhead]
    exact h.sync.head
  · rw [hprev]
    exact h.outside

end Memory.Lined

end BigPlan.QueuedSynchronizer
