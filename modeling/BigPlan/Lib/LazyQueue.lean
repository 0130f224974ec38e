import Mathlib.Data.List.Basic
import Mathlib.Logic.Function.Basic

/-!
# Queues with lazy removal

Nodes are appended at the tail, and each one is linked to a node ahead of it. One after the other
is the head for some time. A node that is behind the head may leave, and is unlinked only later, by
the nodes behind it. Whatever has been unlinked by then, the links lead from the tail to every node
that still waits.
-/
namespace BigPlan.Lib

/-- The nodes that were appended, the last one first, those that have been the head, those that have
left, and the links. -/
@[ext] structure LazyQueue (ν : Type) where
  order : List ν
  headed : ν → Prop
  gone : ν → Prop
  tail : Option ν
  prev : ν → Option ν

namespace LazyQueue

variable {ν : Type} [DecidableEq ν]

/-! ## Ranks -/

/-- How many nodes had been appended with this one, and 0 if it was not. -/
def rank : List ν → ν → ℕ
  | [], _ => 0
  | m :: order, n => if n = m then order.length + 1 else rank order n

section Rank

variable {order : List ν} {m n : ν}

theorem rank_cons_self : rank (n :: order) n = order.length + 1 := if_pos rfl

theorem rank_cons_of_ne (h : n ≠ m) : rank (m :: order) n = rank order n := if_neg h

theorem rank_le_length (order : List ν) (n : ν) : rank order n ≤ order.length := by
  induction order with
  | nil => exact Nat.le_refl 0
  | cons m order ih =>
    by_cases h : n = m
    · apply Nat.le_of_eq
      rw [h, rank_cons_self, List.length_cons]
    · rw [rank_cons_of_ne h, List.length_cons]
      omega

theorem rank_pos_iff : 0 < rank order n ↔ n ∈ order := by
  induction order with
  | nil => simp [rank]
  | cons m order ih =>
    by_cases h : n = m
    · rw [h, rank_cons_self]
      simp
    · rw [rank_cons_of_ne h, ih, List.mem_cons, or_iff_right h]

theorem rank_eq_zero (h : n ∉ order) : rank order n = 0 := by
  have hpos := mt rank_pos_iff.mp h
  omega

theorem rank_inj (hn : n ∈ order) (h : rank order n = rank order m) : n = m := by
  induction order with
  | nil => cases hn
  | cons l order ih =>
    by_cases hnl : n = l <;> by_cases hml : m = l
    · rw [hnl, hml]
    · rw [hnl, rank_cons_self, rank_cons_of_ne hml] at h
      have hle := rank_le_length order m
      omega
    · rw [hml, rank_cons_self, rank_cons_of_ne hnl] at h
      have hle := rank_le_length order n
      omega
    · rw [rank_cons_of_ne hnl, rank_cons_of_ne hml] at h
      exact ih ((List.mem_cons.mp hn).resolve_left hnl) h

end Rank

/-! ## What the links say -/

variable (q : LazyQueue ν)

/-- The node was appended, or it is the first head, which never is. -/
def Known (n : ν) : Prop := n ∈ q.order ∨ q.headed n

def Waits (n : ν) : Prop := n ∈ q.order ∧ ¬ q.headed n ∧ ¬ q.gone n

/-- `p` is ahead of `x`, and no node between them waits. -/
structure Follows (x p : ν) : Prop where
  lt : rank q.order p < rank q.order x
  known : q.Known p
  nearest : ∀ n, q.Waits n → rank q.order n < rank q.order x → rank q.order n ≤ rank q.order p

/-- The links skip no node that waits, the tail is behind all of these, and the nodes that have been
the head are ahead of them. -/
structure Linked : Prop where
  empty : q.tail = none → q.order = []
  last : ∀ t, q.tail = some t → q.Known t ∧ ∀ n, q.Waits n → rank q.order n ≤ rank q.order t
  prev : ∀ x p, q.Known x → q.prev x = some p → q.Follows x p
  first : ∀ x ∈ q.order, q.prev x = none → q.headed x
  head : ∀ h n, q.headed h → q.Waits n → rank q.order h < rank q.order n
  apart : ∀ n, q.headed n → ¬ q.gone n

variable {q} {q' : LazyQueue ν} {x p n t : ν}

theorem Follows.mem (h : q.Follows x p) : x ∈ q.order := rank_pos_iff.mp (Nat.zero_lt_of_lt h.lt)

/-- A node that has left is skipped. -/
theorem Follows.skip (h : q.Follows x p) (hgone : q.gone p) (h' : q.Follows p n) :
    q.Follows x n where
  lt := Nat.lt_trans h'.lt h.lt
  known := h'.known
  nearest m hm hlt := by
    have hle := h.nearest m hm hlt
    have hne : rank q.order m ≠ rank q.order p := by
      intro heq
      rw [rank_inj hm.1 heq] at hm
      exact hm.2.2 hgone
    exact h'.nearest m hm (by omega)

/-! ## The links lead to the nodes that wait -/

/-- The links lead from one node to another. -/
inductive Leads (prev : ν → Option ν) : ν → ν → Prop where
  | refl {n : ν} : Leads prev n n
  | step {t p n : ν} (hne : t ≠ n) (hprev : prev t = some p) (h : Leads prev p n) : Leads prev t n

theorem Linked.leads (h : q.Linked) (hn : q.Waits n) (ht : q.Known t)
    (hle : rank q.order n ≤ rank q.order t) : Leads q.prev t n := by
  induction hrank : rank q.order t using Nat.strongRecOn generalizing t with
  | ind k ih =>
    by_cases hne : t = n
    · rw [hne]
      exact .refl
    have hlt : rank q.order n < rank q.order t := by
      have hranks : rank q.order n ≠ rank q.order t := fun heq => hne (rank_inj hn.1 heq).symm
      omega
    cases hprev : q.prev t with
    | none =>
      have hmem := rank_pos_iff.mp (Nat.zero_lt_of_lt hlt)
      have hhead := h.head t n (h.first t hmem hprev) hn
      omega
    | some p =>
      have hfollows := h.prev t p ht hprev
      apply Leads.step hne hprev
      apply ih (rank q.order p) (hrank ▸ hfollows.lt) hfollows.known _ rfl
      exact hfollows.nearest n hn hlt

/-- A node that waits is found from the tail. -/
theorem Linked.found (h : q.Linked) (hn : q.Waits n) :
    ∃ t, q.tail = some t ∧ Leads q.prev t n := by
  cases htail : q.tail with
  | none =>
    have hmem := hn.1
    rw [h.empty htail] at hmem
    cases hmem
  | some t =>
    obtain ⟨hknown, hlast⟩ := h.last t htail
    exact ⟨t, rfl, h.leads hn hknown (hlast n hn)⟩

theorem Linked.prev_ne_none (h : q.Linked) (hn : q.Waits n) : q.prev n ≠ none :=
  fun hprev => hn.2.1 (h.first n hn.1 hprev)

/-! ## What a change leaves -/

/-- Known nodes keep their ranks, and one that waits did so before or is behind all of these. -/
structure Extends (q q' : LazyQueue ν) : Prop where
  known : ∀ n, q.Known n → q'.Known n
  rank : ∀ n, q.Known n → rank q'.order n = rank q.order n
  waits : ∀ n, q'.Waits n → q.Waits n ∨ ∀ m, q.Known m → LazyQueue.rank q'.order m <
    LazyQueue.rank q'.order n

theorem Follows.mono (h : q.Follows x p) (he : q.Extends q') : q'.Follows x p where
  lt := by
    rw [he.rank p h.known, he.rank x (.inl h.mem)]
    exact h.lt
  known := he.known p h.known
  nearest n hn hlt := by
    rcases he.waits n hn with hold | hnew
    · have hn' := he.rank n (.inl hold.1)
      rw [hn', he.rank x (.inl h.mem)] at hlt
      rw [hn', he.rank p h.known]
      exact h.nearest n hold hlt
    · have hlt' := hnew x (.inl h.mem)
      omega

/-- Nothing is appended, and no more nodes wait. -/
theorem extends_of_order (horder : q'.order = q.order) (hheaded : ∀ n, q.headed n → q'.headed n)
    (hgone : ∀ n, q.gone n → q'.gone n) : q.Extends q' where
  known n h := h.imp (fun hmem => horder ▸ hmem) (hheaded n)
  rank n _ := by rw [horder]
  waits n h := .inl ⟨horder ▸ h.1, fun hn => h.2.1 (hheaded n hn), fun hn => h.2.2 (hgone n hn)⟩

theorem Extends.refl : q.Extends q := extends_of_order rfl (fun _ h => h) fun _ h => h

/-! ## The changes -/

/-- The node goes behind the others. -/
def append (q : LazyQueue ν) (y : ν) : LazyQueue ν :=
  { q with order := y :: q.order, tail := some y }

def lead (q : LazyQueue ν) (y : ν) : LazyQueue ν :=
  { q with headed := fun n => n = y ∨ q.headed n }

def leave (q : LazyQueue ν) (y : ν) : LazyQueue ν :=
  { q with gone := fun n => n = y ∨ q.gone n }

def link (q : LazyQueue ν) (y : ν) (p : Option ν) : LazyQueue ν :=
  { q with prev := Function.update q.prev y p }

def endAt (q : LazyQueue ν) (t : ν) : LazyQueue ν := { q with tail := some t }

variable {y : ν}

theorem extends_append (hnew : ¬ q.Known y) : q.Extends (q.append y) where
  known n h := h.imp_left (List.mem_cons_of_mem y)
  rank n h := rank_cons_of_ne fun heq => hnew (heq ▸ h)
  waits n h := by
    obtain ⟨hmem, hheaded, hgone⟩ := h
    rcases List.mem_cons.mp hmem with rfl | hmem
    · refine .inr fun m hm => ?_
      show rank (n :: q.order) m < rank (n :: q.order) n
      have hne : m ≠ n := fun heq => hnew (heq ▸ hm)
      have hle := rank_le_length q.order m
      rw [rank_cons_self, rank_cons_of_ne hne]
      omega
    · exact .inl ⟨hmem, hheaded, hgone⟩

theorem extends_lead : q.Extends (q.lead y) := extends_of_order rfl (fun _ => .inr) fun _ h => h

theorem extends_leave : q.Extends (q.leave y) := extends_of_order rfl (fun _ h => h) fun _ => .inr

theorem extends_link {v : Option ν} : q.Extends (q.link y v) :=
  extends_of_order rfl (fun _ h => h) fun _ h => h

theorem extends_endAt : q.Extends (q.endAt y) :=
  extends_of_order rfl (fun _ h => h) fun _ h => h

theorem Linked.append (h : q.Linked) (hnew : ¬ q.Known y) (htail : q.tail = some t)
    (hprev : q.prev y = some t) : (q.append y).Linked := by
  have he := extends_append hnew
  have hself : rank (q.append y).order y = q.order.length + 1 := rank_cons_self
  obtain ⟨ht, hlast⟩ := h.last t htail
  have hbehind : ∀ m, q.Known m → rank (q.append y).order m < rank (q.append y).order y := by
    intro m hm
    have hle := rank_le_length q.order m
    rw [he.rank m hm, hself]
    omega
  constructor
  · intro htail'
    cases htail'
  · intro t' ht'
    cases ht'
    refine ⟨.inl List.mem_cons_self, fun n hn => ?_⟩
    rcases List.mem_cons.mp hn.1 with rfl | hmem
    · exact Nat.le_refl _
    · exact Nat.le_of_lt (hbehind n (.inl hmem))
  · intro x p hx hp
    by_cases hxy : x = y
    · subst hxy
      obtain rfl : t = p := Option.some.inj (hprev.symm.trans hp)
      refine ⟨hbehind t ht, he.known t ht, fun n hn hlt => ?_⟩
      rcases he.waits n hn with hold | hnew'
      · rw [he.rank n (.inl hold.1), he.rank t ht]
        exact hlast n hold
      · rcases List.mem_cons.mp hn.1 with rfl | hmem
        · omega
        · exact absurd (hnew' n (.inl hmem)) (Nat.lt_irrefl _)
    · have hx' : q.Known x := hx.imp_left fun hmem => (List.mem_cons.mp hmem).resolve_left hxy
      exact (h.prev x p hx' hp).mono he
  · intro x hx hp
    rcases List.mem_cons.mp hx with rfl | hmem
    · exact absurd (hprev.symm.trans hp) nofun
    · exact h.first x hmem hp
  · intro m n hm hn
    rcases he.waits n hn with hold | hnew'
    · rw [he.rank m (.inr hm), he.rank n (.inl hold.1)]
      exact h.head m n hm hold
    · exact hnew' m (.inr hm)
  · exact h.apart

/-- The next head, once the one ahead of it has been the head. -/
theorem Linked.lead (h : q.Linked) (hfollows : q.Follows y p) (hp : q.headed p)
    (hgone : ¬ q.gone y) : (q.lead y).Linked := by
  have he : q.Extends (q.lead y) := extends_lead
  have hwaits : ∀ n, (q.lead y).Waits n → q.Waits n ∧ n ≠ y := fun n hn =>
    ⟨⟨hn.1, fun hn' => hn.2.1 (.inr hn'), hn.2.2⟩, fun heq => hn.2.1 (.inl heq)⟩
  have hknown : ∀ n, (q.lead y).Known n → q.Known n := by
    intro n hn
    rcases hn with hmem | rfl | hheaded
    · exact .inl hmem
    · exact .inl hfollows.mem
    · exact .inr hheaded
  constructor
  · exact h.empty
  · intro t' ht'
    obtain ⟨ht, hlast⟩ := h.last t' ht'
    exact ⟨he.known t' ht, fun n hn => hlast n (hwaits n hn).1⟩
  · exact fun x p hx hprev => (h.prev x p (hknown x hx) hprev).mono he
  · exact fun x hx hprev => .inr (h.first x hx hprev)
  · intro m n hm hn
    obtain ⟨hwait, hne⟩ := hwaits n hn
    rcases hm with rfl | hm
    · have hhead := h.head p n hp hwait
      have hle := hfollows.nearest n hwait
      have hranks : rank q.order n ≠ rank q.order m := fun heq => hne (rank_inj hwait.1 heq)
      show rank q.order m < rank q.order n
      omega
    · exact h.head m n hm hwait
  · intro n hn
    rcases hn with rfl | hn
    · exact hgone
    · exact h.apart n hn

/-- The first head, which is not appended. -/
theorem Linked.leadFirst (h : q.Linked) (hmem : y ∉ q.order) (hprev : q.prev y = none)
    (hgone : ¬ q.gone y) : (q.lead y).Linked := by
  have he : q.Extends (q.lead y) := extends_lead
  have hwaits : ∀ n, (q.lead y).Waits n → q.Waits n := fun n hn =>
    ⟨hn.1, fun hn' => hn.2.1 (.inr hn'), hn.2.2⟩
  constructor
  · exact h.empty
  · intro t' ht'
    obtain ⟨ht, hlast⟩ := h.last t' ht'
    exact ⟨he.known t' ht, fun n hn => hlast n (hwaits n hn)⟩
  · intro x p hx hp
    rcases hx with hx | rfl | hx
    · exact (h.prev x p (.inl hx) hp).mono he
    · exact absurd (hprev.symm.trans hp) nofun
    · exact (h.prev x p (.inr hx) hp).mono he
  · exact fun x hx hp => .inr (h.first x hx hp)
  · intro m n hm hn
    rcases hm with rfl | hm
    · show rank q.order m < rank q.order n
      rw [rank_eq_zero hmem]
      exact rank_pos_iff.mpr hn.1
    · exact h.head m n hm (hwaits n hn)
  · intro n hn
    rcases hn with rfl | hn
    · exact hgone
    · exact h.apart n hn

theorem Linked.leave (h : q.Linked) (hheaded : ¬ q.headed y) : (q.leave y).Linked := by
  have he : q.Extends (q.leave y) := extends_leave
  have hwaits : ∀ n, (q.leave y).Waits n → q.Waits n := fun n hn =>
    ⟨hn.1, hn.2.1, fun hgone => hn.2.2 (.inr hgone)⟩
  constructor
  · exact h.empty
  · intro t' ht'
    obtain ⟨ht, hlast⟩ := h.last t' ht'
    exact ⟨ht, fun n hn => hlast n (hwaits n hn)⟩
  · exact fun x p hx hprev => (h.prev x p hx hprev).mono he
  · exact h.first
  · exact fun m n hm hn => h.head m n hm (hwaits n hn)
  · intro n hn hgone
    rcases hgone with rfl | hgone
    · exact hheaded hn
    · exact h.apart n hn hgone

/-- The links of other nodes are as they were. -/
theorem Linked.link (h : q.Linked) {v : Option ν}
    (hsome : ∀ p, q.Known y → v = some p → q.Follows y p)
    (hnone : y ∈ q.order → v = none → q.headed y) : (q.link y v).Linked := by
  have he : q.Extends (q.link y v) := extends_link
  constructor
  · exact h.empty
  · exact h.last
  · intro x p hx hp
    have hp : Function.update q.prev y v x = some p := hp
    by_cases hxy : x = y
    · rw [hxy, Function.update_self] at hp
      rw [hxy] at hx ⊢
      exact (hsome p hx hp).mono he
    · rw [Function.update_of_ne hxy] at hp
      exact (h.prev x p hx hp).mono he
  · intro x hx hp
    have hp : Function.update q.prev y v x = none := hp
    by_cases hxy : x = y
    · rw [hxy, Function.update_self] at hp
      rw [hxy] at hx ⊢
      exact hnone hx hp
    · rw [Function.update_of_ne hxy] at hp
      exact h.first x hx hp
  · exact h.head
  · exact h.apart

/-- The last node has left, and one ahead of it becomes the tail. -/
theorem Linked.cut (h : q.Linked) (htail : q.tail = some y) (hgone : q.gone y)
    (hfollows : q.Follows y p) : (q.endAt p).Linked := by
  obtain ⟨-, hlast⟩ := h.last y htail
  constructor
  · intro htail'
    cases htail'
  · intro t' ht'
    cases ht'
    refine ⟨hfollows.known, fun n hn => ?_⟩
    have hn : q.Waits n := hn
    have hranks : rank q.order n ≠ rank q.order y := by
      intro heq
      rw [rank_inj hn.1 heq] at hn
      exact hn.2.2 hgone
    have hle := hlast n hn
    exact hfollows.nearest n hn (by omega)
  · exact fun x p hx hprev => (h.prev x p hx hprev).mono extends_endAt
  · exact h.first
  · exact h.head
  · exact h.apart

/-- The first tail. -/
theorem Linked.begin (h : q.Linked) (htail : q.tail = none) (hheaded : q.headed y) :
    (q.endAt y).Linked := by
  have hempty := h.empty htail
  constructor
  · intro htail'
    cases htail'
  · intro t' ht'
    cases ht'
    refine ⟨.inr hheaded, fun n hn => ?_⟩
    have hmem : n ∈ q.order := hn.1
    rw [hempty] at hmem
    cases hmem
  · exact fun x p hx hprev => (h.prev x p hx hprev).mono extends_endAt
  · exact h.first
  · exact h.head
  · exact h.apart

/-- The changes that keep the links. -/
inductive Step (q : LazyQueue ν) : LazyQueue ν → Prop where
  | rest : Step q q
  | append {y t : ν} (hnew : ¬ q.Known y) (htail : q.tail = some t) (hprev : q.prev y = some t) :
    Step q (q.append y)
  | lead {y p : ν} (hfollows : q.Follows y p) (hp : q.headed p) (hgone : ¬ q.gone y) :
    Step q (q.lead y)
  | leadFirst {y : ν} (hmem : y ∉ q.order) (hprev : q.prev y = none) (hgone : ¬ q.gone y) :
    Step q (q.lead y)
  | leave {y : ν} (hheaded : ¬ q.headed y) : Step q (q.leave y)
  | link {y : ν} {v : Option ν} (hsome : ∀ p, q.Known y → v = some p → q.Follows y p)
    (hnone : y ∈ q.order → v = none → q.headed y) : Step q (q.link y v)
  | cut {y p : ν} (htail : q.tail = some y) (hgone : q.gone y) (hfollows : q.Follows y p) :
    Step q (q.endAt p)
  | begin {y : ν} (htail : q.tail = none) (hheaded : q.headed y) : Step q (q.endAt y)

theorem Step.linked (h : q.Linked) (hstep : q.Step q') : q'.Linked := by
  cases hstep with
  | rest => exact h
  | append hnew htail hprev => exact h.append hnew htail hprev
  | lead hfollows hp hgone => exact h.lead hfollows hp hgone
  | leadFirst hmem hprev hgone => exact h.leadFirst hmem hprev hgone
  | leave hheaded => exact h.leave hheaded
  | link hsome hnone => exact h.link hsome hnone
  | cut htail hgone hfollows => exact h.cut htail hgone hfollows
  | begin htail hheaded => exact h.begin htail hheaded

theorem Step.extends (hstep : q.Step q') : q.Extends q' := by
  cases hstep with
  | rest => exact .refl
  | append hnew => exact extends_append hnew
  | lead | leadFirst => exact extends_lead
  | leave => exact extends_leave
  | link => exact extends_link
  | cut | begin => exact extends_endAt

theorem linked_nil {headed gone : ν → Prop} (hheaded : ∀ n, ¬ headed n) :
    (LazyQueue.mk [] headed gone none fun _ => none).Linked where
  empty _ := rfl
  last _ h := by cases h
  prev _ _ _ h := by cases h
  first _ h := absurd h List.not_mem_nil
  head m _ h := absurd h (hheaded m)
  apart n h := absurd h (hheaded n)

end LazyQueue

end BigPlan.Lib
