import BigPlan.Lock.QueueInvariant

/-!
# Steps that keep the queue

What one step does to the queue, to what the calls know of it and to the nodes that they are to
append.
-/
namespace BigPlan.QueuedSynchronizer

open Lib Lib.Java Lib.Runs Program Node

variable {T : Type} {c : Call} {events : Events T} {o : Op T} {n : Ref}

namespace State

variable [DecidableEq T] {s s' : State T} {t : T} {input : Input}
  {e : Event (Op T) (Op.Answer T)}

/-! ## Answers -/

section Answers

variable {m : Memory T}

/-- The operation of an event and its answer. -/
theorem performed {o o' : Op T} {a : o.Answer T}
    (h : (⟨o, a⟩ : Event (Op T) (Op.Answer T)) = ⟨o', (m.perform t input o').2⟩) :
    o' = o ∧ a = (m.perform t input o).2 := by
  obtain rfl := congrArg Event.op h
  refine ⟨rfl, ?_⟩
  injection h with _ ha

theorem compareAndSet_succeeds {field : Field} {expect update : Option Ref} {purpose : Purpose}
    (h : true = (m.perform t input (.compareAndSet field expect update purpose)).2) :
    m.field field = expect := by
  by_contra hne
  rw [Memory.perform_compareAndSet_of_ne hne] at h
  cases h

theorem compareAndSetWaitStatus_succeeds {expect update : ℤ} {purpose : Purpose}
    (h : true = (m.perform t input (.compareAndSetWaitStatus n expect update purpose)).2) :
    m.waitStatus n = expect := by
  by_contra hne
  rw [Memory.perform_compareAndSetWaitStatus_of_ne hne] at h
  cases h

end Answers

/-! ## What stays -/

section Step

variable (h : s.Orderly) (p : s.Proceeds s' t c events input o)

section Mono

include p

theorem Proceeds.headed_mono (hn : s.Headed n) : s'.Headed n := p.headed.mpr (.inl hn)

theorem Proceeds.mem_mono (hn : n ∈ s.memory.appended) : n ∈ s'.memory.appended := by
  rw [p.memory]
  rcases s.memory.appended_perform t input o with heq | ⟨field, expect, node, -, -, heq⟩
  · exact heq ▸ hn
  · exact heq ▸ List.mem_cons_of_mem node hn

theorem Proceeds.fresh_le : s.memory.fresh ≤ s'.memory.fresh := by
  rw [p.memory]
  exact s.memory.le_fresh_perform t input o

theorem Proceeds.gone_of (hgone : 0 < s'.memory.waitStatus n) :
    0 < s.memory.waitStatus n ∨ o = .setWaitStatus n CANCELLED := by
  rw [p.memory] at hgone
  exact gone_of_perform p.allowed hgone

theorem Proceeds.condition_of (hcondition : s'.memory.waitStatus n = CONDITION) :
    s.memory.waitStatus n = CONDITION ∨
      n = s.memory.fresh ∧ c.Awaits ∧ ∃ thread w, o = .newNode thread CONDITION w := by
  rw [p.memory] at hcondition
  exact condition_of_perform p.allowed hcondition

/-- A node that has been there is not new. -/
theorem Proceeds.condition_of_lt (hlt : n < s.memory.fresh)
    (hcondition : s'.memory.waitStatus n = CONDITION) : s.memory.waitStatus n = CONDITION := by
  rcases p.condition_of hcondition with hold | ⟨rfl, -⟩
  · exact hold
  · exact absurd hlt (Nat.lt_irrefl _)

theorem Proceeds.mem_of (hn : n ∈ s'.memory.appended) :
    n ∈ s.memory.appended ∨ Holds c n events ∧
      Appends n (⟨o, (s.memory.perform t input o).2⟩ : Event (Op T) (Op.Answer T)) := by
  rw [p.memory] at hn
  rcases s.memory.appended_perform t input o with heq | ⟨field, expect, node, rfl, hfield, heq⟩
  · exact .inl (heq ▸ hn)
  rw [heq] at hn
  rcases List.mem_cons.mp hn with rfl | hn
  · obtain ⟨rfl, x, rest, rfl, rfl, hholds⟩ := p.allowed.of_append
    refine .inr ⟨.later hholds (not_appends fun _ _ heq => by cases heq), .tail, some x, ?_⟩
    rw [Memory.perform_compareAndSet_of_eq hfield]
  · exact .inl hn

end Mono

include h p

theorem Proceeds.gone_mono (hn : 0 < s.memory.waitStatus n) : 0 < s'.memory.waitStatus n := by
  rw [p.memory]
  exact gone_perform p.allowed (h.gone_lt hn) hn

/-! ## What the calls have seen -/

theorem Proceeds.not_broken
    (he : e = ⟨o, (s.memory.perform t input o).2⟩) : ¬ Broken (e :: events) := by
  have hhas := p.running.has
  intro hbroken
  cases hbroken with
  | first hjoined hmade hheads =>
    obtain ⟨rfl, hprev⟩ := performed he
    rcases h.joined hhas hjoined with hmem | hheaded
    · exact hheads (h.head_own p.running hmade (h.linked.first _ hmem hprev.symm))
    · exact hheads (h.head_own p.running hmade hheaded)
  | skip hahead hgone =>
    obtain ⟨rfl, hprev⟩ := performed he
    have hgone := h.positive hhas hgone
    rcases (h.ahead hhas hahead).known with hmem | hheaded
    · exact h.linked.apart _ (h.linked.first _ hmem hprev.symm) hgone
    · exact h.linked.apart _ hheaded hgone
  | later hbroken => exact h.unbroken hhas hbroken

theorem Proceeds.joined_cons
    (he : e = ⟨o, (s.memory.perform t input o).2⟩) (hjoined : Joined n (e :: events)) :
    s'.queue.Known n := by
  have hhas := p.running.has
  have hextends := (p.queue_step h).extends
  cases hjoined with
  | appended =>
    obtain ⟨rfl, ha⟩ := performed he
    refine .inl ?_
    show n ∈ s'.memory.appended
    rw [p.memory, Memory.perform_compareAndSet_of_eq (compareAndSet_succeeds ha)]
    exact List.mem_cons_self
  | behind =>
    obtain ⟨rfl, ha⟩ := performed he
    exact hextends.known n (h.linked.last n (compareAndSet_succeeds ha)).1
  | tail =>
    obtain ⟨rfl, ha⟩ := performed he
    exact hextends.known n (h.linked.last n ha.symm).1
  | prev hnode =>
    obtain ⟨rfl, ha⟩ := performed he
    exact hextends.known n (h.linked.prev _ n (h.joined hhas hnode) ha.symm).known
  | next =>
    obtain ⟨rfl, ha⟩ := performed he
    exact hextends.known n (h.next ha.symm)
  | later hjoined => exact hextends.known n (h.joined hhas hjoined)

theorem Proceeds.ahead_cons {x y : Ref}
    (he : e = ⟨o, (s.memory.perform t input o).2⟩) (hahead : Ahead x y (e :: events)) :
    s'.queue.Follows x y := by
  have hhas := p.running.has
  have hextends := (p.queue_step h).extends
  cases hahead with
  | read hjoined =>
    obtain ⟨rfl, ha⟩ := performed he
    exact (h.linked.prev x y (h.joined hhas hjoined) ha.symm).mono hextends
  | skip hahead hgone =>
    obtain ⟨rfl, ha⟩ := performed he
    have hfollows := h.ahead hhas hahead
    have hnext := h.linked.prev _ y hfollows.known ha.symm
    exact (hfollows.skip (h.positive hhas hgone) hnext).mono hextends
  | later hahead => exact (h.ahead hhas hahead).mono hextends

theorem Proceeds.witnessed : s'.Witnessed where
  unbroken hhas := by
    rcases p.of_has _ _ hhas with hold | ⟨rfl, rfl⟩
    · exact h.unbroken hold
    · exact p.not_broken h rfl
  unfailed hhas hc := by
    rcases p.of_has _ _ hhas with hold | ⟨rfl, rfl⟩
    · exact h.unfailed hold hc
    · rintro ⟨arg, hmem⟩
      have hnot := h.unfailed p.running.has hc
      have hnew := p.succeeds hc
      rcases hmem with hmem | ⟨a, ha, hmem⟩
      · rcases List.mem_cons.mp hmem with heq | hmem
        · exact hnew ⟨arg, .inl (List.mem_singleton.mpr heq)⟩
        · exact hnot ⟨arg, .inl hmem⟩
      · rcases List.mem_cons.mp hmem with heq | hmem
        · exact hnew ⟨arg, .inr ⟨a, ha, List.mem_singleton.mpr heq⟩⟩
        · exact hnot ⟨arg, .inr ⟨a, ha, hmem⟩⟩
  joined {c' events' n} hhas hjoined := by
    rcases p.of_has _ _ hhas with hold | ⟨rfl, rfl⟩
    · exact (p.queue_step h).extends.known n (h.joined hold hjoined)
    · exact p.joined_cons h rfl hjoined
  ahead hhas hahead := by
    rcases p.of_has _ _ hhas with hold | ⟨rfl, rfl⟩
    · exact (h.ahead hold hahead).mono (p.queue_step h).extends
    · exact p.ahead_cons h rfl hahead
  read_head hlogged := by
    rcases (p.logged p.running.has).mp hlogged with hold | ⟨-, heq⟩
    · exact p.headed_mono (h.read_head hold)
    · obtain ⟨rfl, ha⟩ := performed heq
      exact p.headed_mono (h.head ha.symm)
  positive hhas hpositive := by
    rcases p.of_has _ _ hhas with hold | ⟨rfl, rfl⟩
    · exact p.gone_mono h (h.positive hold hpositive)
    · obtain ⟨ws, hws, hmem⟩ := hpositive
      rcases List.mem_cons.mp hmem with heq | hmem
      · obtain ⟨rfl, ha⟩ := performed heq
        have ha : ws = s.memory.waitStatus _ := ha
        exact p.gone_mono h (ha ▸ hws)
      · exact p.gone_mono h (h.positive p.running.has ⟨ws, hws, hmem⟩)
  left hhas hleft := by
    rcases p.of_has _ _ hhas with hold | ⟨rfl, rfl⟩
    · exact p.gone_mono h (h.left hold hleft)
    · rcases List.mem_cons.mp hleft with heq | hleft
      · obtain ⟨rfl, -⟩ := performed heq
        rw [p.memory]
        show 0 < (s.memory.setWaitStatus _ CANCELLED).waitStatus _
        rw [Memory.waitStatus_setWaitStatus, if_pos rfl]
        decide
      · exact p.gone_mono h (h.left p.running.has hleft)
  appended hhas happended := by
    rcases p.of_has _ _ hhas with hold | ⟨rfl, rfl⟩
    · exact p.mem_mono (h.appended hold happended)
    · obtain ⟨field, expect, hmem⟩ := happended
      rcases List.mem_cons.mp hmem with heq | hmem
      · obtain ⟨rfl, ha⟩ := performed heq
        rw [p.memory, Memory.perform_compareAndSet_of_eq (compareAndSet_succeeds ha)]
        exact List.mem_cons_self
      · exact p.mem_mono (h.appended p.running.has ⟨field, expect, hmem⟩)

/-! ## Where the nodes are -/

omit h in
theorem Proceeds.field_of_not {g : Field} (hg : ¬ s.memory.Writes o g) :
    s'.memory.field g = s.memory.field g := by
  rw [p.memory]
  exact Memory.field_perform hg

omit h in
theorem Proceeds.head_cases : s'.memory.field .head = s.memory.field .head ∨
    (∃ node, o = .set .head (some node) ∧ Made node events ∧ (∃ x, Ahead node x events) ∧
      s'.memory.field .head = some node) ∨
    ∃ node rest, o = .compareAndSet .head none (some node) .other ∧
      events = ⟨.newNode none 0 none, node⟩ :: rest ∧ s.memory.field .head = none ∧
      (s.memory.perform t input (.compareAndSet .head none (some node) .other)).2 = true ∧
      s'.memory.field .head = some node := by
  by_cases hw : s.memory.Writes o .head
  swap
  · exact .inl (p.field_of_not hw)
  rcases p.allowed.writes_head hw with ⟨node, x, rfl, hmade, hahead⟩ | ⟨node, rest, rfl, rfl⟩
  · refine .inr (.inl ⟨node, rfl, hmade, ⟨x, hahead⟩, ?_⟩)
    rw [p.memory]
    exact (Memory.field_set ..).trans (if_pos rfl)
  by_cases hhead : s.memory.field .head = none
  · have hperform : s.memory.perform t input (.compareAndSet .head none (some node) .other) = _ :=
      Memory.perform_compareAndSet_of_eq hhead
    refine .inr (.inr ⟨node, rest, rfl, rfl, hhead, congrArg Prod.snd hperform, ?_⟩)
    rw [p.memory, hperform]
    show (s.memory.set .head (some node)).field .head = some node
    rw [Memory.field_set, if_pos rfl]
  · refine .inl ?_
    rw [p.memory, Memory.perform_compareAndSet_of_ne hhead]

omit h in
theorem Proceeds.tail_cases : s'.memory.field .tail = s.memory.field .tail ∨
    (∃ x y, s.memory.field .tail = some x ∧ s'.memory.field .tail = some y) ∨
    ∃ node v rest, events = ⟨.get .head, v⟩ ::
      ⟨.compareAndSet .head none (some node) .other, true⟩ :: rest := by
  by_cases hw : s.memory.Writes o .tail
  swap
  · exact .inl (p.field_of_not hw)
  rcases p.allowed.writes_tail hw with ⟨x, y, purpose, rfl⟩ | hstarts
  swap
  · exact .inr (.inr hstarts)
  by_cases htail : s.memory.field .tail = some x
  · refine .inr (.inl ⟨x, y, htail, ?_⟩)
    rw [p.memory, Memory.perform_compareAndSet_of_eq htail]
    show (s.memory.set .tail (some y)).field .tail = some y
    rw [Memory.field_set, if_pos rfl]
  · refine .inl ?_
    rw [p.memory, Memory.perform_compareAndSet_of_ne htail]

/-- A call goes on holding a node until it has appended it. -/
theorem Proceeds.holds_on {c' : Call} {events' : Events T} (hhas : s.Has c' events')
    (hholds : Holds c' n events') : n ∈ s'.memory.appended ∨
      ∃ c'' events'', s'.Has c'' events'' ∧ Holds c'' n events'' := by
  rcases p.has c' events' hhas with hsame | ⟨rfl, rfl, hnew⟩
  · exact .inr ⟨c', events', hsame, hholds⟩
  · by_cases happends : Appends n (⟨o, (s.memory.perform t input o).2⟩ : Event _ (Op.Answer T))
    · obtain ⟨field, expect, heq⟩ := happends
      exact .inl ((p.witnessed h).appended hnew ⟨field, expect, heq ▸ List.mem_cons_self⟩)
    · exact .inr ⟨_, _, hnew, .later hholds happends⟩

theorem Proceeds.placed : s'.Placed where
  linked := (p.queue_step h).linked h.linked
  head hn := by
    rcases p.head_cases with hsame | ⟨node, rfl, -, -, hnode⟩ |
      ⟨node, rest, rfl, -, -, hanswer, hnode⟩
    · exact p.headed_mono (h.head (hsame ▸ hn))
    · cases hn.symm.trans hnode
      exact p.headed.mpr (.inr (.inl rfl))
    · cases hn.symm.trans hnode
      exact p.headed.mpr (.inr (.inr (by rw [hanswer])))
  tail hn := by
    rcases p.head_cases with hsame | ⟨node, -, -, -, hnode⟩ | ⟨node, rest, -, -, -, -, hnode⟩
    · have hhead : s.memory.field .head = none := hsame.symm.trans hn
      have htail := h.tail hhead
      rcases p.tail_cases with hsame | ⟨x, y, hx, -⟩ | ⟨node, v, rest, rfl⟩
      · exact hsame.trans htail
      · cases htail.symm.trans hx
      · have hstarted := (h.started p.running ⟨rest, .inr ⟨v, rfl⟩⟩).1
        cases hhead.symm.trans hstarted
    · cases hn.symm.trans hnode
    · cases hn.symm.trans hnode
  next {x n} hn := by
    have hhas := p.running.has
    apply (p.queue_step h).extends.known x
    by_cases hw : s.memory.Writes o (.next x)
    swap
    · exact h.next ((p.field_of_not hw).symm.trans hn)
    rcases p.allowed.writes_next hw with rfl | hjoined | ⟨y, hahead⟩
    · rw [p.memory] at hn
      cases hn.symm.trans ((Memory.field_set ..).trans (if_pos rfl))
    · exact h.joined hhas hjoined
    · exact (h.ahead hhas hahead).known
  prev {x q} hq := by
    by_cases hw : s.memory.Writes o (.prev x)
    swap
    · rcases h.prev ((p.field_of_not hw).symm.trans hq) with hmem | ⟨c', events', hhas, hholds⟩
      · exact .inl (p.mem_mono hmem)
      · exact p.holds_on h hhas hholds
    rcases p.allowed.writes_prev hw with ⟨rfl, -⟩ | ⟨q, rfl, hholds | hahead⟩
    · rw [p.memory] at hq
      cases hq.symm.trans ((Memory.field_set ..).trans (if_pos rfl))
    · exact p.holds_on h p.running.has hholds
    · exact .inl (p.mem_mono (h.ahead p.running.has hahead).mem)
  first {n} hn hmem := by
    rcases (p.logged p.running.has).mp hn with hold | ⟨-, heq⟩
    · rcases p.mem_of hmem with hmem | ⟨hholds, -⟩
      · exact h.first hold hmem
      · exact h.not_known p.running hholds (.inr (.inr hold))
    · obtain ⟨rfl, -⟩ := performed heq
      rcases p.mem_of hmem with hmem | ⟨-, field, expect, heq⟩
      · obtain ⟨rest, rfl⟩ := p.allowed.of_leadFirst
        exact (h.dummy p.running).1 hmem
      · cases congrArg Event.op heq
  nodup := by
    rw [p.memory]
    rcases s.memory.appended_perform t input o with heq | ⟨field, expect, node, rfl, -, heq⟩
    · exact heq ▸ h.nodup
    · obtain ⟨-, x, rest, -, rfl, hholds⟩ := p.allowed.of_append
      have hholds : Holds c node (⟨.set (.prev node) (some x), ()⟩ :: rest) :=
        .later hholds (not_appends fun _ _ heq => by cases heq)
      rw [heq]
      exact List.nodup_cons.mpr ⟨(h.held p.running hholds).1, h.nodup⟩
  appended_lt {n} hn := by
    apply Nat.lt_of_lt_of_le _ p.fresh_le
    rcases p.mem_of hn with hmem | ⟨hholds, -⟩
    · exact h.appended_lt hmem
    · exact (h.held p.running hholds).2.2
  headed_lt {n} hn := by
    apply Nat.lt_of_lt_of_le _ p.fresh_le
    rcases p.headed.mp hn with hold | heq | heq
    · exact h.headed_lt hold
    · obtain ⟨rfl, -⟩ := performed heq
      exact h.made_lt p.running p.allowed.of_lead
    · obtain ⟨rfl, -⟩ := performed heq
      obtain ⟨rest, rfl⟩ := p.allowed.of_leadFirst
      exact (h.dummy p.running).2.2.2
  gone_lt {n} hn := by
    apply Nat.lt_of_lt_of_le _ p.fresh_le
    rcases p.gone_of hn with hold | rfl
    · exact h.gone_lt hold
    · exact h.made_lt p.running p.allowed.of_setWaitStatus.2.1
  condition_lt {n} hn := by
    rcases p.condition_of hn with hold | ⟨rfl, -, thread, w, rfl⟩
    · exact Nat.lt_of_lt_of_le (h.condition_lt hold) p.fresh_le
    · rw [p.memory]
      exact Nat.lt_succ_self _

/-! ## The nodes of a call -/

/-- A node that is headed from now on is the one of the call, or its first one. -/
theorem Proceeds.headed_new (hn : s'.Headed n) : s.Headed n ∨
    (o = .set .head (some n) ∧ Made n events ∧ ∃ x, s.queue.Follows n x) ∨
    ∃ rest, o = .compareAndSet .head none (some n) .other ∧
      events = ⟨.newNode none 0 none, n⟩ :: rest := by
  rcases p.headed.mp hn with hold | heq | heq
  · exact .inl hold
  · obtain ⟨rfl, -⟩ := performed heq
    have hallowed := p.allowed
    cases hallowed with
    | inert hinert => exact hinert.elim
    | lead hmade _ hahead => exact .inr (.inl ⟨rfl, hmade, _, h.ahead p.running.has hahead⟩)
  · obtain ⟨rfl, -⟩ := performed heq
    obtain ⟨rest, rfl⟩ := p.allowed.of_leadFirst
    exact .inr (.inr ⟨rest, rfl, rfl⟩)

omit h in
/-- A node that was made is new, or it was made before. -/
theorem Proceeds.made_of {u : T} {c' : Call} {events' : Events T}
    (hin : s'.InCall u c' events') (hmade : Made n events') :
    (u = t ∧ c' = c ∧ n = s.memory.fresh ∧ s'.memory.fresh = s.memory.fresh + 1 ∧
      ∃ thread ws w, o = .newNode (some thread) ws w) ∨
      ∃ before, s.InCall u c' before ∧ Made n before ∧ before ⊆ events' := by
  rcases p.inCall u c' events' hin with ⟨rfl, rfl, rfl⟩ | ⟨-, hold⟩
  · obtain ⟨thread, ws, w, hmem⟩ := hmade
    rcases List.mem_cons.mp hmem with heq | hmem
    · obtain ⟨rfl, hn⟩ := performed heq
      refine .inl ⟨rfl, rfl, hn, ?_, thread, ws, w, rfl⟩
      rw [p.memory]
      rfl
    · exact .inr ⟨events, p.running, ⟨thread, ws, w, hmem⟩, List.subset_cons_self _ _⟩
  · exact .inr ⟨events', hold, hmade, fun _ he => he⟩

/-- What a call holds from now on, no other call holds. -/
theorem Proceeds.holds_new
    (hnew : ¬ c.Signals ∧ (∃ u mode, (⟨o, (s.memory.perform t input o).2⟩ : Event _ (Op.Answer T)) =
        ⟨.newNode (some u) 0 mode, n⟩) ∨
      ¬ c.Signals ∧ (⟨o, (s.memory.perform t input o).2⟩ : Event _ (Op.Answer T)) =
        ⟨.compareAndSetWaitStatus n CONDITION 0 .cancelWait, true⟩ ∨
      c.Signals ∧ (⟨o, (s.memory.perform t input o).2⟩ : Event _ (Op.Answer T)) =
        ⟨.set (.nextWaiter n) none, ()⟩) :
    n ∉ s.memory.appended ∧ ¬ s'.Headed n ∧ n < s'.memory.fresh ∧
      (¬ c.Signals → s'.memory.waitStatus n ≠ CONDITION) ∧
      ∀ u c' events', s.InCall u c' events' → Holds c' n events' → u = t := by
  have hheaded' : ¬ s.Headed n → (∀ v, o ≠ .set .head v) →
      (∀ expect update purpose, o ≠ .compareAndSet .head expect update purpose) →
      ¬ s'.Headed n := by
    intro hnot hset hcas hheaded
    rcases p.headed_new h hheaded with hold | ⟨ho, -⟩ | ⟨rest, ho, -⟩
    · exact hnot hold
    · exact hset _ ho
    · exact hcas _ _ _ ho
  rcases hnew with ⟨hc, v, mode, heq⟩ | ⟨hc, heq⟩ | ⟨hc, heq⟩
  · obtain ⟨rfl, hn⟩ := performed heq.symm
    have hn : n = s.memory.fresh := hn
    subst hn
    refine ⟨fun hmem => absurd (h.appended_lt hmem) (Nat.lt_irrefl _),
      hheaded' (fun hheaded => absurd (h.headed_lt hheaded) (Nat.lt_irrefl _)) (by simp) (by simp),
      ?_, fun _ => ?_, ?_⟩
    · rw [p.memory]
      exact Nat.lt_succ_self _
    · rw [p.memory]
      show (s.memory.newNode (some v) 0 mode).waitStatus s.memory.fresh ≠ CONDITION
      rw [Memory.waitStatus_newNode, if_pos rfl]
      decide
    · exact fun u c' events' hin hholds => absurd (h.held hin hholds).2.2 (Nat.lt_irrefl _)
  · obtain ⟨rfl, ha⟩ := performed heq.symm
    have hws := compareAndSetWaitStatus_succeeds ha
    have htaken : ¬ s.TakenBySignal n := fun htaken => p.cancelling n rfl htaken hws
    have hknown : ¬ s.queue.Known n := fun hknown => htaken (h.waiting hws hknown)
    refine ⟨fun hmem => hknown (.inl hmem),
      hheaded' (fun hheaded => hknown (.inr hheaded)) (by simp) (by simp),
      Nat.lt_of_lt_of_le (h.condition_lt hws) p.fresh_le, fun _ => ?_, ?_⟩
    · rw [p.memory, Memory.perform_compareAndSetWaitStatus_of_eq hws]
      show (s.memory.setWaitStatus n 0).waitStatus n ≠ CONDITION
      rw [Memory.waitStatus_setWaitStatus, if_pos rfl]
      decide
    · intro u c' events' hin hholds
      by_cases hsignals : c'.Signals
      · exact absurd ⟨c', events', hin.has, hsignals, hholds.unlinked hsignals⟩ htaken
      · exact absurd hws (h.held_status hin hholds hsignals)
  · obtain ⟨rfl, -⟩ := performed heq.symm
    obtain ⟨hws, hmem⟩ := p.taking hc n rfl
    refine ⟨hmem, hheaded' (fun hheaded => ?_) (by simp) (by simp),
      Nat.lt_of_lt_of_le (h.condition_lt hws) p.fresh_le, fun hnot => absurd hc hnot, ?_⟩
    · obtain ⟨c', events', hhas', hsignals, hunlinked⟩ := h.waiting hws (.inr hheaded)
      rcases Unlinked.holds_or hunlinked hsignals with hholds | happended
      · obtain ⟨u, hin⟩ := h.inCall_of_holds hhas' hholds
        exact (h.held hin hholds).2.1 hheaded
      · exact hmem (h.appended hhas' happended)
    · intro u c' events' hin hholds
      by_cases hsignals : c'.Signals
      · exact h.granted_once hin p.running (h.granted hin.has hsignals (hholds.unlinked hsignals))
          (p.allowed.of_take hc)
      · exact absurd hws (h.held_status hin hholds hsignals)

/-- What a call holds it has held before, or it is about to. -/
theorem Proceeds.holds_of {u : T} {c' : Call} {events' : Events T}
    (hin : s'.InCall u c' events') (hholds : Holds c' n events') :
    (∃ before, s.InCall u c' before ∧ Holds c' n before ∧ n ∉ s'.memory.appended) ∨
      u = t ∧ c' = c ∧ n ∉ s'.memory.appended ∧ ¬ s'.Headed n ∧ n < s'.memory.fresh ∧
        (¬ c.Signals → s'.memory.waitStatus n ≠ CONDITION) ∧
        ∀ u c' events', s.InCall u c' events' → Holds c' n events' → u = t := by
  have hnot : n ∉ s.memory.appended → (Holds c n events → ¬ Appends n
      (⟨o, (s.memory.perform t input o).2⟩ : Event _ (Op.Answer T))) → n ∉ s'.memory.appended := by
    intro hmem hnot hmem'
    rcases p.mem_of hmem' with hmem' | ⟨hholds, happends⟩
    · exact hmem hmem'
    · exact hnot hholds happends
  rcases p.inCall u c' events' hin with ⟨rfl, rfl, rfl⟩ | ⟨hu, hold⟩
  · rcases holds_cons hholds with ⟨hholds, he⟩ | hnew
    · exact .inl ⟨events, p.running, hholds, hnot (h.held p.running hholds).1 fun _ => he⟩
    · obtain ⟨hmem, hheaded, hlt, hws, honce⟩ := p.holds_new h hnew
      refine .inr ⟨rfl, rfl, hnot hmem fun _ happends => ?_, hheaded, hlt, hws, honce⟩
      obtain ⟨field, expect, heq⟩ := happends
      rw [heq] at hnew
      rcases hnew with ⟨-, v, mode, hnew⟩ | ⟨-, hnew⟩ | ⟨-, hnew⟩
      · cases congrArg Event.op hnew
      · cases congrArg Event.op hnew
      · cases congrArg Event.op hnew
  · refine .inl ⟨events', hold, hholds, hnot (h.held hold hholds).1 fun hholds' => ?_⟩
    exact absurd (h.held_once hold p.running hholds hholds') hu

/-- A node that a call holds is not made the head by another one. -/
theorem Proceeds.not_headed_of {u : T} {c' : Call} {events' : Events T}
    (hin : s.InCall u c' events') (hholds : Holds c' n events') : ¬ s'.Headed n := by
  intro hheaded
  rcases p.headed_new h hheaded with hold | ⟨-, -, x, hfollows⟩ | ⟨rest, -, rfl⟩
  · exact (h.held hin hholds).2.1 hold
  · exact (h.held hin hholds).1 hfollows.mem
  · exact (h.dummy_own p.running hin).2 hholds

theorem Proceeds.starts_kept {u : T} {c' : Call} {events' : Events T} (hu : u ≠ t)
    (hin : s.InCall u c' events') (hstarts : Starts events' n) :
    s'.memory.field .head = some n ∧ s'.memory.field .tail = none := by
  obtain ⟨hhead, htail⟩ := h.started hin hstarts
  constructor
  · rcases p.head_cases with hsame | ⟨node, -, -, ⟨x, hahead⟩, -⟩ | ⟨node, rest, -, -, hnone, -⟩
    · exact hsame.trans hhead
    · have hmem := (h.ahead p.running.has hahead).mem
      rw [h.linked.empty htail] at hmem
      cases hmem
    · cases hnone.symm.trans hhead
  · rcases p.tail_cases with hsame | ⟨x, y, hx, -⟩ | ⟨node, v, rest, rfl⟩
    · exact hsame.trans htail
    · cases htail.symm.trans hx
    · exact absurd (h.started_once hin p.running hstarts ⟨rest, .inr ⟨v, rfl⟩⟩) hu

/-- The call that makes the first head. -/
theorem Proceeds.starts_new (hstarts : Starts (⟨o, (s.memory.perform t input o).2⟩ :: events) n) :
    s'.memory.field .head = some n ∧ s'.memory.field .tail = none ∧
      (s.memory.field .head = none ∨ Starts events n) := by
  obtain ⟨rest, heq | ⟨v, heq⟩⟩ := hstarts
  · obtain ⟨hevent, rfl⟩ := List.cons.inj heq
    obtain ⟨rfl, ha⟩ := performed hevent.symm
    have hhead : s.memory.field .head = none := compareAndSet_succeeds ha
    refine ⟨?_, ?_, .inl hhead⟩
    · rw [p.memory, Memory.perform_compareAndSet_of_eq hhead]
      show (s.memory.set .head (some n)).field .head = some n
      rw [Memory.field_set, if_pos rfl]
    · rw [p.field_of_not (by simp [Memory.Writes])]
      exact h.tail hhead
  · obtain ⟨hevent, rfl⟩ := List.cons.inj heq
    obtain ⟨rfl, -⟩ := performed hevent.symm
    have hstarts : Starts (⟨.compareAndSet .head none (some n) .other, true⟩ :: rest) n :=
      ⟨rest, .inl rfl⟩
    obtain ⟨hhead, htail⟩ := h.started p.running hstarts
    refine ⟨?_, ?_, .inr hstarts⟩
    · rw [p.field_of_not id]
      exact hhead
    · rw [p.field_of_not id]
      exact htail

theorem Proceeds.parted : s'.Parted where
  made_lt {u c' events' n} hin hmade := by
    rcases p.made_of hin hmade with ⟨-, -, rfl, hfresh, -⟩ | ⟨before, hold, hmade, -⟩
    · rw [hfresh]
      exact Nat.lt_succ_self _
    · exact Nat.lt_of_lt_of_le (h.made_lt hold hmade) p.fresh_le
  made_once {u c₁ events₁ v c₂ events₂ n} hin₁ hin₂ hmade₁ hmade₂ := by
    rcases p.made_of hin₁ hmade₁ with ⟨rfl, -, hn, -⟩ | ⟨before₁, hold₁, hmade₁, -⟩ <;>
      rcases p.made_of hin₂ hmade₂ with ⟨rfl, -, hn', -⟩ | ⟨before₂, hold₂, hmade₂, -⟩
    · rfl
    · exact absurd (hn ▸ h.made_lt hold₂ hmade₂) (Nat.lt_irrefl _)
    · exact absurd (hn' ▸ h.made_lt hold₁ hmade₁) (Nat.lt_irrefl _)
    · exact h.made_once hold₁ hold₂ hmade₁ hmade₂
  left_own {u c' events' n} hin hmade hgone := by
    rcases p.made_of hin hmade with ⟨-, -, rfl, -, thread, ws, w, rfl⟩ |
      ⟨before, hold, hmade', hsubset⟩
    · rcases p.gone_of hgone with hold | ho
      · exact absurd (h.gone_lt hold) (Nat.lt_irrefl _)
      · cases ho
    · rcases p.gone_of hgone with hgone | rfl
      · exact hsubset (h.left_own hold hmade' hgone)
      · obtain rfl := h.made_once hold p.running hmade' p.allowed.of_setWaitStatus.2.1
        rcases p.inCall u c' events' hin with ⟨-, -, rfl⟩ | ⟨hne, -⟩
        · exact List.mem_cons_self
        · exact absurd rfl hne
  head_own {u c' events' n} hin hmade hheaded := by
    rcases p.made_of hin hmade with ⟨-, -, rfl, -, thread, ws, w, rfl⟩ |
      ⟨before, hold, hmade', hsubset⟩
    · rcases p.headed_new h hheaded with hold | ⟨ho, -⟩ | ⟨rest, ho, -⟩
      · exact absurd (h.headed_lt hold) (Nat.lt_irrefl _)
      · cases ho
      · cases ho
    · rcases p.headed_new h hheaded with hheaded | ⟨rfl, hnode, -⟩ | ⟨rest, -, rfl⟩
      · exact hsubset (h.head_own hold hmade' hheaded)
      · obtain rfl := h.made_once hold p.running hmade' hnode
        rcases p.inCall u c' events' hin with ⟨-, -, rfl⟩ | ⟨hne, -⟩
        · exact List.mem_cons_self
        · exact absurd rfl hne
      · exact absurd hmade' (h.dummy_own p.running hold).1
  held {u c' events' n} hin hholds := by
    rcases p.holds_of h hin hholds with ⟨before, hold, hholds, hmem⟩ | ⟨-, -, hmem, hheaded, hlt, -⟩
    · exact ⟨hmem, p.not_headed_of h hold hholds,
        Nat.lt_of_lt_of_le (h.held hold hholds).2.2 p.fresh_le⟩
    · exact ⟨hmem, hheaded, hlt⟩
  held_status {u c' events' n} hin hholds hc := by
    rcases p.holds_of h hin hholds with ⟨before, hold, hholds, -⟩ | ⟨-, rfl, -, -, -, hws, -⟩
    · exact fun hws => h.held_status hold hholds hc (p.condition_of_lt (h.held hold hholds).2.2 hws)
    · exact hws hc
  held_once {u c₁ events₁ v c₂ events₂ n} hin₁ hin₂ hholds₁ hholds₂ := by
    rcases p.holds_of h hin₁ hholds₁ with ⟨before₁, hold₁, hholds₁, -⟩ | ⟨rfl, -, -, -, -, -, h₁⟩ <;>
      rcases p.holds_of h hin₂ hholds₂ with ⟨before₂, hold₂, hholds₂, -⟩ | ⟨rfl, -, -, -, -, -, h₂⟩
    · exact h.held_once hold₁ hold₂ hholds₁ hholds₂
    · exact h₂ u _ _ hold₁ hholds₁
    · exact (h₁ v _ _ hold₂ hholds₂).symm
    · rfl
  prepared {u c' n q rest} hin hholds := by
    rcases p.inCall u c' _ hin with ⟨rfl, rfl, heq⟩ | ⟨hu, hold⟩
    · obtain ⟨heq, -⟩ := List.cons.inj heq
      obtain ⟨rfl, -⟩ := performed heq
      rw [p.memory]
      exact (Memory.field_set ..).trans (if_pos rfl)
    have hholds' : Holds c' n (⟨.set (.prev n) (some q), ()⟩ :: rest) :=
      .later hholds (not_appends fun _ _ heq => by cases heq)
    by_cases hw : s.memory.Writes o (.prev n)
    swap
    · exact (p.field_of_not hw).trans (h.prepared hold hholds)
    exfalso
    rcases p.allowed.writes_prev hw with ⟨rfl, hheads⟩ | ⟨q, rfl, hholds₂ | hahead⟩
    · exact (h.held hold hholds').2.1 (.inl ⟨c, _, p.running.has, trivial, hheads⟩)
    · exact hu (h.held_once hold p.running hholds' hholds₂)
    · exact (h.held hold hholds').1 (h.ahead p.running.has hahead).mem
  dummy {u c' n rest} hin := by
    rcases p.inCall u c' _ hin with ⟨rfl, rfl, heq⟩ | ⟨hu, hold⟩
    · obtain ⟨heq, -⟩ := List.cons.inj heq
      obtain ⟨rfl, hn⟩ := performed heq
      have hn : n = s.memory.fresh := hn
      subst hn
      rw [p.memory]
      refine ⟨fun hmem => absurd (h.appended_lt hmem) (Nat.lt_irrefl _), ?_, ?_,
        Nat.lt_succ_self _⟩
      · show (s.memory.newNode none 0 none).waitStatus s.memory.fresh ≤ 0
        apply Int.le_of_eq
        rw [Memory.waitStatus_newNode, if_pos rfl]
      · show (s.memory.newNode none 0 none).waitStatus s.memory.fresh ≠ CONDITION
        rw [Memory.waitStatus_newNode, if_pos rfl]
        decide
    · obtain ⟨hmem, hws, hne, hlt⟩ := h.dummy hold
      obtain ⟨hmade, hholds⟩ := h.dummy_own hold p.running
      refine ⟨fun hmem' => ?_, Int.not_lt.mp fun hgone => ?_, ?_, Nat.lt_of_lt_of_le hlt p.fresh_le⟩
      · rcases p.mem_of hmem' with hmem' | ⟨hholds', -⟩
        · exact hmem hmem'
        · exact hholds hholds'
      · rcases p.gone_of hgone with hgone | rfl
        · exact absurd hgone (Int.not_lt.mpr hws)
        · exact hmade p.allowed.of_setWaitStatus.2.1
      · exact fun hcondition => hne (p.condition_of_lt hlt hcondition)
  dummy_own {u c₁ n rest v c₂ events₂} hin₁ hin₂ := by
    rcases p.inCall u c₁ _ hin₁ with ⟨rfl, rfl, heq⟩ | ⟨hu, hold₁⟩
    · obtain ⟨hevent, rfl⟩ := List.cons.inj heq
      obtain ⟨rfl, hn⟩ := performed hevent
      have hn : n = s.memory.fresh := hn
      subst hn
      constructor
      · intro hmade
        rcases p.made_of hin₂ hmade with ⟨-, -, -, -, thread, ws, w, ho⟩ | ⟨before, hold, hmade, -⟩
        · cases ho
        · exact absurd (h.made_lt hold hmade) (Nat.lt_irrefl _)
      · intro hholds
        rcases p.inCall v c₂ events₂ hin₂ with ⟨rfl, rfl, rfl⟩ | ⟨-, hold⟩
        · rcases holds_cons hholds with ⟨hholds, -⟩ | ⟨-, w, mode, he⟩ | ⟨-, he⟩ | ⟨-, he⟩
          · exact absurd (h.held p.running hholds).2.2 (Nat.lt_irrefl _)
          · cases congrArg Event.op he
          · cases congrArg Event.op he
          · cases congrArg Event.op he
        · exact absurd (h.held hold hholds).2.2 (Nat.lt_irrefl _)
    obtain ⟨-, -, hne, hlt⟩ := h.dummy hold₁
    constructor
    · intro hmade
      rcases p.made_of hin₂ hmade with ⟨-, -, rfl, -⟩ | ⟨before, hold, hmade, -⟩
      · exact Nat.lt_irrefl _ hlt
      · exact (h.dummy_own hold₁ hold).1 hmade
    · intro hholds
      obtain ⟨hmade', hholds'⟩ := h.dummy_own hold₁ p.running
      rcases p.inCall v c₂ events₂ hin₂ with ⟨rfl, rfl, rfl⟩ | ⟨-, hold⟩
      · rcases holds_cons hholds with ⟨hholds, -⟩ | ⟨-, w, mode, he⟩ | ⟨-, he⟩ | ⟨hc, he⟩
        · exact hholds' hholds
        · obtain ⟨rfl, hn⟩ := performed he.symm
          have hn : n = s.memory.fresh := hn
          exact Nat.lt_irrefl _ (hn ▸ hlt)
        · obtain ⟨rfl, -⟩ := performed he.symm
          exact hmade' p.allowed.of_cancelWait.2.2.2
        · obtain ⟨rfl, -⟩ := performed he.symm
          exact hne (p.taking hc n rfl).1
      · exact (h.dummy_own hold₁ hold).2 hholds
  started {u c' events' n} hin hstarts := by
    rcases p.inCall u c' events' hin with ⟨rfl, rfl, rfl⟩ | ⟨hu, hold⟩
    · obtain ⟨hhead, htail, -⟩ := p.starts_new h hstarts
      exact ⟨hhead, htail⟩
    · exact p.starts_kept h hu hold hstarts
  started_read {u c' n v rest} hin := by
    rcases p.inCall u c' _ hin with ⟨rfl, rfl, heq⟩ | ⟨hu, hold⟩
    · obtain ⟨hevent, rfl⟩ := List.cons.inj heq
      obtain ⟨rfl, ha⟩ := performed hevent
      exact ha.trans (h.started p.running ⟨rest, .inl rfl⟩).1
    · exact h.started_read hold
  started_once {u c₁ events₁ v c₂ events₂ n n'} hin₁ hin₂ hstarts₁ hstarts₂ := by
    have hnew : ∀ {v c₂ events₂ n n'}, v ≠ t → s.InCall v c₂ events₂ → Starts events₂ n' →
        ¬ Starts (⟨o, (s.memory.perform t input o).2⟩ :: events) n := by
      intro v c₂ events₂ n n' hv hold hstarts₂ hstarts₁
      obtain ⟨-, -, hhead | hstarts₁⟩ := p.starts_new h hstarts₁
      · cases hhead.symm.trans (h.started hold hstarts₂).1
      · exact hv (h.started_once hold p.running hstarts₂ hstarts₁)
    rcases p.inCall u c₁ events₁ hin₁ with ⟨rfl, rfl, rfl⟩ | ⟨hu, hold₁⟩ <;>
      rcases p.inCall v c₂ events₂ hin₂ with ⟨rfl, rfl, rfl⟩ | ⟨hv, hold₂⟩
    · rfl
    · exact absurd hstarts₁ (hnew hv hold₂ hstarts₂)
    · exact absurd hstarts₂ (hnew hu hold₁ hstarts₁)
    · exact h.started_once hold₁ hold₂ hstarts₁ hstarts₂

/-! ## Signals and cancelled waits -/

omit h in
theorem Proceeds.taken_of (htaken : s'.TakenBySignal n) :
    s.TakenBySignal n ∨ c.Signals ∧ o = .set (.nextWaiter n) none := by
  rcases (p.logged p.running.has).mp htaken with hold | ⟨hc, heq⟩
  · exact .inl hold
  · obtain ⟨rfl, -⟩ := performed heq
    exact .inr ⟨hc, rfl⟩

omit h in
theorem Proceeds.taken_mono (htaken : s.TakenBySignal n) : s'.TakenBySignal n :=
  (p.logged p.running.has).mpr (.inl htaken)

/-- A node that has been in a call before does not get the status of a new waiter. -/
theorem Proceeds.known_of (hn : s'.queue.Known n) :
    s.queue.Known n ∨ Holds c n events ∨ s.memory.waitStatus n ≠ CONDITION := by
  rcases hn with hmem | hheaded
  · rcases p.mem_of hmem with hmem | ⟨hholds, -⟩
    · exact .inl (.inl hmem)
    · exact .inr (.inl hholds)
  · rcases p.headed_new h hheaded with hold | ⟨-, -, x, hfollows⟩ | ⟨rest, -, rfl⟩
    · exact .inl (.inr hold)
    · exact .inl (.inl hfollows.mem)
    · exact .inr (.inr (h.dummy p.running).2.2.1)

theorem Proceeds.cancelled_old {c' : Call} {events' : Events T} (hhas : s.Has c' events')
    (hcancelled : WaitCancelled n events') : n < s'.memory.fresh ∧
      s'.memory.waitStatus n ≠ CONDITION ∧ ¬ s'.TakenBySignal n := by
  obtain ⟨hlt, hne, hnot⟩ := h.cancelled hhas hcancelled
  refine ⟨Nat.lt_of_lt_of_le hlt p.fresh_le, fun hws => hne (p.condition_of_lt hlt hws), ?_⟩
  intro htaken
  rcases p.taken_of htaken with hold | ⟨hc, rfl⟩
  · exact hnot hold
  · exact hne (p.taking hc n rfl).1

theorem Proceeds.signed : s'.Signed where
  settled d hd := h.settled d (p.completed ▸ hd)
  born {u c' events' n} hin hmade hws := by
    rcases p.made_of hin hmade with ⟨-, rfl, rfl, -⟩ | ⟨before, hold, hmade, -⟩
    · rcases p.condition_of hws with hws | ⟨-, hc, -⟩
      · exact absurd (h.condition_lt hws) (Nat.lt_irrefl _)
      · exact hc
    · exact h.born hold hmade (p.condition_of_lt (h.made_lt hold hmade) hws)
  taken {n} htaken := by
    rcases p.taken_of htaken with hold | ⟨hc, rfl⟩
    · obtain ⟨hlt, hws⟩ := h.taken hold
      refine ⟨Nat.lt_of_lt_of_le hlt p.fresh_le, Int.not_lt.mp fun hgone => ?_⟩
      rcases p.gone_of hgone with hgone | rfl
      · exact absurd hgone (Int.not_lt.mpr hws)
      · obtain ⟨-, hmade, -, hfailed⟩ := p.allowed.of_setWaitStatus
        have hc := h.taken_own hold p.running hmade
        exact h.unfailed p.running.has hc (hfailed hc)
    · obtain ⟨hws, -⟩ := p.taking hc n rfl
      refine ⟨Nat.lt_of_lt_of_le (h.condition_lt hws) p.fresh_le, Int.not_lt.mp fun hgone => ?_⟩
      rcases p.gone_of hgone with hgone | ho
      · rw [hws] at hgone
        exact absurd hgone (by decide)
      · cases ho
  taken_own {u c' events' n} htaken hin hmade := by
    rcases p.made_of hin hmade with ⟨-, -, rfl, -, thread, ws, w, ho⟩ | ⟨before, hold, hmade, -⟩
    · rcases p.taken_of htaken with htaken | ⟨-, rfl⟩
      · exact absurd (h.taken htaken).1 (Nat.lt_irrefl _)
      · cases ho
    · rcases p.taken_of htaken with htaken | ⟨hc, rfl⟩
      · exact h.taken_own htaken hold hmade
      · exact h.born hold hmade (p.taking hc n rfl).1
  cancelled {c' events' n} hhas hcancelled := by
    rcases p.of_has c' events' hhas with hold | ⟨rfl, rfl⟩
    · exact p.cancelled_old h hold hcancelled
    obtain ⟨expect, update, hmem⟩ := hcancelled
    rcases List.mem_cons.mp hmem with heq | hmem
    swap
    · exact p.cancelled_old h p.running.has ⟨expect, update, hmem⟩
    obtain ⟨rfl, ha⟩ := performed heq
    obtain ⟨rfl, rfl, -⟩ := p.allowed.of_cancelWait
    have hws := compareAndSetWaitStatus_succeeds ha
    refine ⟨Nat.lt_of_lt_of_le (h.condition_lt hws) p.fresh_le, ?_, fun htaken => ?_⟩
    · rw [p.memory, Memory.perform_compareAndSetWaitStatus_of_eq hws]
      show (s.memory.setWaitStatus n 0).waitStatus n ≠ CONDITION
      rw [Memory.waitStatus_setWaitStatus, if_pos rfl]
      decide
    · rcases p.taken_of htaken with htaken | ⟨-, ho⟩
      · exact p.cancelling n rfl htaken hws
      · cases ho
  waiting {n} hws hknown := by
    rcases p.condition_of hws with hws | ⟨rfl, -, thread, w, rfl⟩
    · rcases p.known_of h hknown with hknown | hholds | hne
      · exact p.taken_mono (h.waiting hws hknown)
      · by_cases hc : c.Signals
        · exact p.taken_mono ⟨c, events, p.running.has, hc, hholds.unlinked hc⟩
        · exact absurd hws (h.held_status p.running hholds hc)
      · exact absurd hws hne
    · rcases hknown with hmem | hheaded
      · rcases p.mem_of hmem with hmem | ⟨hholds, -⟩
        · exact absurd (h.appended_lt hmem) (Nat.lt_irrefl _)
        · exact absurd (h.held p.running hholds).2.2 (Nat.lt_irrefl _)
      · rcases p.headed_new h hheaded with hheaded | ⟨ho, -⟩ | ⟨rest, ho, -⟩
        · exact absurd (h.headed_lt hheaded) (Nat.lt_irrefl _)
        · cases ho
        · cases ho
  transferred {c' events' n} hhas hc happended := by
    rcases p.of_has c' events' hhas with hold | ⟨rfl, rfl⟩
    · exact h.transferred hold hc happended
    obtain ⟨field, expect, hmem⟩ := happended
    rcases List.mem_cons.mp hmem with heq | hmem
    · obtain ⟨rfl, -⟩ := performed heq
      obtain ⟨-, x, rest, -, rfl, hholds⟩ := p.allowed.of_append
      exact List.mem_cons_of_mem _ (List.mem_cons_of_mem _ (hholds.unlinked hc))
    · exact List.mem_cons_of_mem _ (h.transferred p.running.has hc ⟨field, expect, hmem⟩)
  granted {c' events' n} hhas hc hunlinked := by
    rcases p.of_has c' events' hhas with hold | ⟨rfl, rfl⟩
    · exact h.granted hold hc hunlinked
    rcases List.mem_cons.mp hunlinked with heq | hmem
    · obtain ⟨rfl, -⟩ := performed heq
      exact List.mem_cons_of_mem _ (p.allowed.of_take hc)
    · exact List.mem_cons_of_mem _ (h.granted p.running.has hc hmem)
  granted_once {u c₁ events₁ v c₂ events₂} hin₁ hin₂ hgranted₁ hgranted₂ := by
    have hnew : ∀ {v c₂ events₂}, s.InCall v c₂ events₂ → Granted events₂ →
        Granted (⟨o, (s.memory.perform t input o).2⟩ :: events) → v = t := by
      intro v c₂ events₂ hold hgranted₂ hgranted
      rcases List.mem_cons.mp hgranted with heq | hgranted
      · exact p.holder (List.mem_singleton.mpr heq) v c₂ events₂ hold hgranted₂
      · exact h.granted_once hold p.running hgranted₂ hgranted
    rcases p.inCall u c₁ events₁ hin₁ with ⟨rfl, rfl, rfl⟩ | ⟨-, hold₁⟩ <;>
      rcases p.inCall v c₂ events₂ hin₂ with ⟨rfl, rfl, rfl⟩ | ⟨-, hold₂⟩
    · rfl
    · exact (hnew hold₂ hgranted₂ hgranted₁).symm
    · exact hnew hold₁ hgranted₁ hgranted₂
    · exact h.granted_once hold₁ hold₂ hgranted₁ hgranted₂
  held_or {c' events' n} hhas hcancelled := by
    rcases p.of_has c' events' hhas with hold | ⟨rfl, rfl⟩
    · exact h.held_or hold hcancelled
    obtain ⟨expect, update, hmem⟩ := hcancelled
    rcases List.mem_cons.mp hmem with heq | hmem
    · obtain ⟨rfl, ha⟩ := performed heq
      obtain ⟨rfl, rfl, hc, -⟩ := p.allowed.of_cancelWait
      exact .inl (heq ▸ .cancelled hc.not_signals)
    rcases h.held_or p.running.has ⟨expect, update, hmem⟩ with hholds | happended
    · by_cases happends : Appends n (⟨o, (s.memory.perform t input o).2⟩ : Event _ (Op.Answer T))
      · obtain ⟨field, expect, heq⟩ := happends
        exact .inr ⟨field, expect, heq ▸ List.mem_cons_self⟩
      · exact .inl (.later hholds happends)
    · exact .inr happended.cons
  noticed d hd hc n hunlinked hws := by
    have hd : d ∈ s.completed := p.completed ▸ hd
    have hlt := (h.taken ⟨d.call, d.events, .completed hd, hc, hunlinked⟩).1
    exact h.noticed d hd hc n hunlinked (p.condition_of_lt hlt hws)

end Step

/-! ## Turns that perform nothing -/

section Rest

omit [DecidableEq T]

variable (h : s.Orderly) (p : s.Rests s')
include p

theorem Rests.headed : s'.Headed n ↔ s.Headed n := or_congr p.logged p.logged

theorem Rests.queue : s'.queue = s.queue := by
  apply queue_eq p.appended (fun n => p.headed)
  · exact fun n => by rw [p.waitStatus]; rfl
  · exact congrFun p.field _
  · exact fun n => congrFun p.field _

include h

theorem Rests.witnessed : s'.Witnessed where
  unbroken hhas := by
    rcases p.of_has _ _ hhas with hold | rfl
    · exact h.unbroken hold
    · exact fun hbroken => by cases hbroken
  unfailed hhas hc := by
    rcases p.of_has _ _ hhas with hold | rfl
    · exact h.unfailed hold hc
    · rintro ⟨arg, hmem | ⟨a, -, hmem⟩⟩
      · cases hmem
      · cases hmem
  joined hhas hjoined := by
    rcases p.of_has _ _ hhas with hold | rfl
    · exact p.queue ▸ h.joined hold hjoined
    · cases hjoined
  ahead hhas hahead := by
    rcases p.of_has _ _ hhas with hold | rfl
    · exact p.queue ▸ h.ahead hold hahead
    · cases hahead
  read_head hlogged := p.headed.mpr (h.read_head (p.logged.mp hlogged))
  positive hhas hpositive := by
    rcases p.of_has _ _ hhas with hold | rfl
    · exact p.waitStatus ▸ h.positive hold hpositive
    · obtain ⟨ws, -, hmem⟩ := hpositive
      cases hmem
  left hhas hleft := by
    rcases p.of_has _ _ hhas with hold | rfl
    · exact p.waitStatus ▸ h.left hold hleft
    · cases hleft
  appended hhas happended := by
    rcases p.of_has _ _ hhas with hold | rfl
    · exact p.appended ▸ h.appended hold happended
    · obtain ⟨field, expect, hmem⟩ := happended
      cases hmem

theorem Rests.placed : s'.Placed where
  linked := p.queue ▸ h.linked
  head hn := p.headed.mpr (h.head (p.field ▸ hn))
  tail hn := p.field ▸ h.tail (p.field ▸ hn)
  next hn := p.queue ▸ h.next (p.field ▸ hn)
  prev hq := by
    rcases h.prev (p.field ▸ hq) with hmem | ⟨c, events, hhas, hholds⟩
    · exact .inl (p.appended ▸ hmem)
    · exact .inr ⟨c, events, p.has c events hhas, hholds⟩
  first hn := p.appended ▸ h.first (p.logged.mp hn)
  nodup := p.appended ▸ h.nodup
  appended_lt hn := p.fresh ▸ h.appended_lt (p.appended ▸ hn)
  headed_lt hn := p.fresh ▸ h.headed_lt (p.headed.mp hn)
  gone_lt hn := p.fresh ▸ h.gone_lt (p.waitStatus ▸ hn)
  condition_lt hn := p.fresh ▸ h.condition_lt (p.waitStatus ▸ hn)

omit h in
/-- A call that has made a node was there before. -/
theorem Rests.of_made {u : T} (hin : s'.InCall u c events) (hmade : Made n events) :
    s.InCall u c events := by
  refine (p.inCall u c events hin).resolve_right fun hnil => ?_
  subst hnil
  obtain ⟨thread, ws, w, hmem⟩ := hmade
  cases hmem

omit h in
theorem Rests.of_holds {u : T} (hin : s'.InCall u c events) (hholds : Holds c n events) :
    s.InCall u c events := by
  refine (p.inCall u c events hin).resolve_right fun hnil => ?_
  subst hnil
  cases hholds

omit h in
theorem Rests.of_starts {u : T} (hin : s'.InCall u c events) (hstarts : Starts events n) :
    s.InCall u c events := by
  refine (p.inCall u c events hin).resolve_right fun hnil => ?_
  obtain ⟨rest, rfl | ⟨v, rfl⟩⟩ := hstarts
  · cases hnil
  · cases hnil

theorem Rests.parted : s'.Parted where
  made_lt hin hmade := p.fresh ▸ h.made_lt (p.of_made hin hmade) hmade
  made_once hin hin' hmade hmade' :=
    h.made_once (p.of_made hin hmade) (p.of_made hin' hmade') hmade hmade'
  left_own hin hmade hgone := h.left_own (p.of_made hin hmade) hmade (p.waitStatus ▸ hgone)
  head_own hin hmade hheaded := h.head_own (p.of_made hin hmade) hmade (p.headed.mp hheaded)
  held hin hholds := by
    obtain ⟨hmem, hheaded, hlt⟩ := h.held (p.of_holds hin hholds) hholds
    exact ⟨p.appended ▸ hmem, fun hn => hheaded (p.headed.mp hn), p.fresh ▸ hlt⟩
  held_status hin hholds hc := p.waitStatus ▸ h.held_status (p.of_holds hin hholds) hholds hc
  held_once hin hin' hholds hholds' :=
    h.held_once (p.of_holds hin hholds) (p.of_holds hin' hholds') hholds hholds'
  prepared hin hholds := by
    rcases p.inCall _ _ _ hin with hold | hnil
    · exact p.field ▸ h.prepared hold hholds
    · cases hnil
  dummy hin := by
    rcases p.inCall _ _ _ hin with hold | hnil
    · obtain ⟨hmem, hws, hne, hlt⟩ := h.dummy hold
      rw [p.appended, p.waitStatus, p.fresh]
      exact ⟨hmem, hws, hne, hlt⟩
    · cases hnil
  dummy_own hin hin' := by
    rcases p.inCall _ _ _ hin with hold | hnil
    · exact ⟨fun hmade => (h.dummy_own hold (p.of_made hin' hmade)).1 hmade,
        fun hholds => (h.dummy_own hold (p.of_holds hin' hholds)).2 hholds⟩
    · cases hnil
  started hin hstarts := p.field ▸ h.started (p.of_starts hin hstarts) hstarts
  started_read hin := by
    rcases p.inCall _ _ _ hin with hold | hnil
    · exact h.started_read hold
    · cases hnil
  started_once hin hin' hstarts hstarts' :=
    h.started_once (p.of_starts hin hstarts) (p.of_starts hin' hstarts') hstarts hstarts'

theorem Rests.signed (hcompleted : ∀ d ∈ s'.completed, EndsWell d.call d.result d.events ∧
    (d.call.Signals → ∀ n, Unlinked n d.events → s.memory.waitStatus n ≠ CONDITION)) :
    s'.Signed where
  settled d hd := (hcompleted d hd).1
  born hin hmade hws := h.born (p.of_made hin hmade) hmade (p.waitStatus ▸ hws)
  taken htaken := by
    rw [p.fresh, p.waitStatus]
    exact h.taken (p.logged.mp htaken)
  taken_own htaken hin hmade := h.taken_own (p.logged.mp htaken) (p.of_made hin hmade) hmade
  cancelled hhas hcancelled := by
    rcases p.of_has _ _ hhas with hold | rfl
    · obtain ⟨hlt, hne, hnot⟩ := h.cancelled hold hcancelled
      rw [p.fresh, p.waitStatus]
      exact ⟨hlt, hne, fun htaken => hnot (p.logged.mp htaken)⟩
    · obtain ⟨expect, update, hmem⟩ := hcancelled
      cases hmem
  waiting hws hknown := p.logged.mpr (h.waiting (p.waitStatus ▸ hws) (p.queue ▸ hknown))
  transferred hhas hc happended := by
    rcases p.of_has _ _ hhas with hold | rfl
    · exact h.transferred hold hc happended
    · obtain ⟨field, expect, hmem⟩ := happended
      cases hmem
  granted hhas hc hunlinked := by
    rcases p.of_has _ _ hhas with hold | rfl
    · exact h.granted hold hc hunlinked
    · cases hunlinked
  granted_once hin hin' hgranted hgranted' := by
    rcases p.inCall _ _ _ hin with hold | rfl
    · rcases p.inCall _ _ _ hin' with hold' | rfl
      · exact h.granted_once hold hold' hgranted hgranted'
      · cases hgranted'
    · cases hgranted
  held_or hhas hcancelled := by
    rcases p.of_has _ _ hhas with hold | rfl
    · exact h.held_or hold hcancelled
    · obtain ⟨expect, update, hmem⟩ := hcancelled
      cases hmem
  noticed d hd hc n hunlinked := p.waitStatus ▸ (hcompleted d hd).2 hc n hunlinked

end Rest

end State

end BigPlan.QueuedSynchronizer
