import BigPlan.Lock.WakeUp

/-!
# Situations

The states of the runs, with the places of the threads and what is known of them. A thread that is
not parked, or has a permit, can always take its next step.
-/
namespace BigPlan.QueuedSynchronizer.Exclusive

open Lib Lib.Chain Program Node Lib.Runs

variable {T : Type}

/-! ## A thread that does not have to wait -/

/-- One more run of the body leads back to the loop. -/
def Spins {α : Type} : Method T α → Prop
  | .loop body s next => unroll body s next = .loop body s next
  | _ => False

/-- The next operation is a park. -/
def Parks {α : Type} : Method T α → Prop
  | .perform .park _ => True
  | _ => False

theorem acquired_ne (r : Except Unchecked Unit) (code : Method T Unit) :
    State.acquired r ≠ .acquiring code := by
  cases r with
  | ok a =>
    intro h
    cases h
  | error e =>
    intro h
    cases h

theorem Adding.not_spins {node : Ref} {arg : ℤ} (a : Adding) : ¬ Spins (T := T) (do
    let node ← a.code node
    queueing node arg false) := by
  cases a with
  | loop =>
    intro h
    cases h
  | _ => exact id

theorem Waiting.not_spins {node : Ref} {arg : ℤ} (w : Waiting) :
    ¬ Spins (T := T) (w.code node arg) := by
  cases w with
  | loop =>
    intro h
    cases h
  | _ => exact id

theorem Waking.not_spins {h : Ref} (w : Waking) : ¬ Spins (T := T) (afterWake (w.code h)) := by
  cases w with
  | loop c n =>
    match c, n with
    | none, none =>
      intro h
      cases h
    | none, some n =>
      intro h
      cases h
    | some c, n =>
      intro hspins
      change unroll _ _ _ = Program.loop _ _ _ at hspins
      by_cases hc : c = h
      · simp only [unroll, if_pos hc] at hspins
        cases n with
        | none => cases hspins
        | some n => cases hspins
      · simp only [unroll, if_neg hc] at hspins
        cases hspins
  | _ => exact id

variable [DecidableEq T] {s : State T} {t : T} {x : Shared T} {input : Input}

theorem perform_ne_none {o : Op T} (h : o = .park → x.permit t = true) :
    x.perform t input o ≠ none := by
  cases o with
  | park =>
    rw [perform_park (h rfl)]
    exact Option.some_ne_none _
  | tryAcquire arg =>
    unfold Shared.perform
    split
    · exact Option.some_ne_none _
    · exact Option.some_ne_none _
  | unpark thread =>
    cases thread with
    | none => exact Option.some_ne_none _
    | some u => exact Option.some_ne_none _
  | _ => exact Option.some_ne_none _

theorem phase_put (phase : Phase T) : (s.put t phase).phase t = phase := Function.update_self ..

theorem phase_advance_ne {α : Type} {during : Method T α → Phase T}
    {after : Except Unchecked α → Phase T} {code : Method T α} (hphase : s.phase t = during code)
    (hinj : ∀ c, during c = during code → c = code) (hafter : ∀ r, after r ≠ during code)
    (hspins : ¬ Spins code) (hparks : Parks code → s.shared.permit t = true) :
    (s.advance t input during after code).phase t ≠ s.phase t := by
  rw [hphase]
  cases code with
  | ret r =>
    rw [State.advance, phase_put]
    exact hafter r
  | loop body c next =>
    rw [State.advance, phase_put]
    exact fun h => hspins (hinj _ h)
  | perform o next =>
    have hpark : o = .park → s.shared.permit t = true := by
      rintro rfl
      exact hparks trivial
    obtain ⟨⟨x', b⟩, hperform⟩ := Option.ne_none_iff_exists'.mp
      (show s.shared.perform t input o ≠ none from perform_ne_none hpark)
    simp only [State.advance, hperform]
    change (s.put t (during (next b))).phase t ≠ _
    rw [phase_put]
    exact fun h => next_ne rfl (hinj _ h)

theorem acquiring_ne {code : Method T Unit} (hphase : s.phase t = .acquiring code)
    (hspins : ¬ Spins code) (hparks : Parks code → s.shared.permit t = true) (a : ℤ) :
    (s.step ⟨t, a, input⟩).phase t ≠ s.phase t := by
  simp only [State.step, hphase]
  rw [← hphase]
  exact phase_advance_ne hphase (fun c hc => Phase.acquiring.inj hc) (acquired_ne · code) hspins
    hparks

theorem releasing_ne {code : Method T Bool} (hphase : s.phase t = .releasing code)
    (hspins : ¬ Spins code) (hparks : ¬ Parks code) (a : ℤ) :
    (s.step ⟨t, a, input⟩).phase t ≠ s.phase t := by
  simp only [State.step, hphase]
  rw [← hphase]
  refine phase_advance_ne hphase (fun c hc => Phase.releasing.inj hc) ?_ hspins fun h =>
    absurd h hparks
  intro r h
  cases h

/-- A thread that is not parked, or has a permit, goes on in its next step. -/
theorem step_phase_ne {p : Place T} {arg : ℤ} (hphase : s.phase t = p.phase t arg)
    (hparks : ∀ n q, p = .waiting n (.park q) → s.shared.permit t = true) (a : ℤ) :
    (s.step ⟨t, a, input⟩).phase t ≠ s.phase t := by
  cases p with
  | outside =>
    replace hphase : s.phase t = .outside := hphase
    simp only [State.step, hphase, phase_put]
    intro h
    cases h
  | holding =>
    replace hphase : s.phase t = .holding := hphase
    simp only [State.step, hphase, phase_put]
    intro h
    cases h
  | tryAcquire => exact acquiring_ne hphase id False.elim a
  | newNode => exact acquiring_ne hphase id False.elim a
  | adding node b =>
    refine acquiring_ne hphase b.not_spins ?_ a
    cases b <;> exact False.elim
  | waiting node w =>
    refine acquiring_ne hphase w.not_spins ?_ a
    cases w with
    | park q => exact fun _ => hparks node q rfl
    | _ => exact False.elim
  | promoting node q w => cases w <;> exact acquiring_ne hphase id False.elim a
  | acquired => exact acquiring_ne hphase id False.elim a
  | tryRelease => exact releasing_ne hphase id id a
  | getHead => exact releasing_ne hphase id id a
  | getHeadStatus h => exact releasing_ne hphase id id a
  | waking h w =>
    refine releasing_ne hphase w.not_spins ?_ a
    cases w <;> exact id
  | unpark thread => exact releasing_ne hphase id id a
  | released => exact releasing_ne hphase id id a

/-! ## Situations -/

/-- A state with the places of the threads in it. While it is not 0, a thread has the lock. -/
structure Situation (T : Type) where
  state : State T
  place : T → Place T
  arg : T → ℤ
  waiting : List (T × Ref)
  follows : Follows state place arg waiting
  held : state.shared.state ≠ 0 → ∃ t, (place t).Holds

namespace Situation

abbrev shared (c : Situation T) : Shared T := c.state.shared

abbrev links (c : Situation T) : Links T := c.shared.links

/-- Some turns lead from one situation to the other. -/
def LeadsTo (c c' : Situation T) : Prop := Reaches State.step c.state c'.state

/-- The thread takes its next step. -/
structure Takes (c : Situation T) (t : T) (p' : Place T) (c' : Situation T) : Prop where
  leads : c.LeadsTo c'
  moves : Moves t c.shared (c.place t) c'.shared p'
  stepped : Stepped c.links c'.links c.waiting c'.waiting t (c.place t) p'
  place : c'.place = Function.update c.place t p'

end Situation

/-- While the state is not 0, the lock stays with a thread that has it. -/
theorem Moves.of_not_holds {x' : Shared T} {p p' : Place T} (hm : Moves t x p x' p')
    (hp' : ¬ p'.Holds) (hstate : x'.state ≠ 0) : ¬ p.Holds ∧ x.state ≠ 0 := by
  cases hm with
  | reads h => exact ⟨h.holds.not.mp hp', hstate⟩
  | acquires h => exact absurd trivial hp'
  | wins h => exact absurd trivial hp'
  | releases => exact absurd rfl hstate
  | promotes => exact absurd trivial hp'
  | clearsThread => exact absurd trivial hp'
  | clearsPrev => exact absurd trivial hp'
  | clearsNext => exact absurd trivial hp'
  | _ => exact ⟨id, hstate⟩

theorem Moves.exists_holds {place : T → Place T} {x' : Shared T} {p' : Place T}
    (hm : Moves t x (place t) x' p') (hheld : x.state ≠ 0 → ∃ u, (place u).Holds)
    (hstate : x'.state ≠ 0) : ∃ u, (Function.update place t p' u).Holds := by
  by_cases hp' : p'.Holds
  · exact ⟨t, by rwa [Function.update_self]⟩
  · obtain ⟨ht, hx⟩ := hm.of_not_holds hp' hstate
    obtain ⟨u, hu⟩ := hheld hx
    have hut : u ≠ t := by
      rintro rfl
      exact ht hu
    exact ⟨u, by rwa [Function.update_of_ne hut]⟩

omit [DecidableEq T] in
theorem Follows.prev_ne_none {place : T → Place T} {arg : T → ℤ} {waiting : List (T × Ref)}
    (hf : Follows s place arg waiting) {n : Ref} {w : Waiting} (hplace : place t = .waiting n w) :
    s.shared.memory.field (.prev n) ≠ none := by
  have hk := hf.inv.knows t
  rw [hplace] at hk
  have hn := mem_nodesOf.mpr ⟨t, hk.1⟩
  obtain ⟨h, last, -, hq⟩ := hf.inv.linked.exists_queue hn
  obtain ⟨p, -, hp⟩ := hq.exists_prev hn
  exact fun hnone => Option.some_ne_none p (hp.symm.trans hnone)

namespace Situation

/-- Every turn leads to a situation. -/
theorem exists_step (c : Situation T) (turn : Turn T) :
    ∃ c', c'.state = c.state.step turn ∧ (c' = c ∨ ∃ p', c.Takes turn.thread p' c') := by
  obtain ⟨s, place, arg, waiting, hf, hheld⟩ := c
  obtain ⟨t, a, input⟩ := turn
  have hsteps := steps_of_phase hf.inv.calm (fun _ _ => hf.prev_ne_none) (hf.phase t) a input
  have hreaches : Reaches State.step s (s.step ⟨t, a, input⟩) := Reaches.single s _
  change ∃ c' : Situation T, c'.state = s.step ⟨t, a, input⟩ ∧ _
  generalize s.step ⟨t, a, input⟩ = s' at hsteps hreaches ⊢
  cases hsteps with
  | waits => exact ⟨⟨s, place, arg, waiting, hf, hheld⟩, rfl, Or.inl rfl⟩
  | @moves x' p' arg' hm =>
    obtain ⟨waiting', hs⟩ := hf.inv.stepped hm
    have hphase (u : T) : Function.update s.phase t (p'.phase t arg') u =
        (Function.update place t p' u).phase u (Function.update arg t arg' u) := by
      by_cases hut : u = t
      · simp only [hut, Function.update_self]
      · simp only [Function.update_of_ne hut]
        exact hf.phase u
    exact ⟨⟨_, _, _, waiting', ⟨hphase, hf.inv.moves hm hs, hf.awake.moves hf.inv hm hs⟩,
      hm.exists_holds hheld⟩, rfl, Or.inr ⟨p', hreaches, hm, hs, rfl⟩⟩

theorem exists_takes (c : Situation T) (t : T)
    (hparks : ∀ n q, c.place t = .waiting n (.park q) → c.shared.permit t = true) :
    ∃ p' c', c.Takes t p' c' := by
  let input : Input := ⟨0, false, false, 0⟩
  have hne : (c.state.step ⟨t, 0, input⟩).phase t ≠ c.state.phase t :=
    step_phase_ne (c.follows.phase t) hparks 0
  obtain ⟨c', hstate, rfl | ⟨p', ht⟩⟩ := c.exists_step ⟨t, 0, input⟩
  · exact absurd (congrArg (State.phase · t) hstate.symm) hne
  · exact ⟨p', c', ht⟩

def start : Situation T where
  state := .start
  place _ := .outside
  arg _ := 0
  waiting := []
  follows := follows_start
  held h := absurd rfl h

/-- Every state of a run is that of a situation. -/
theorem exists_run (turns : List (Turn T)) :
    ∃ c : Situation T, c.state = run State.step .start turns := by
  refine invariant_run (P := fun s : State T => ∃ c : Situation T, c.state = s) ?_
    ⟨start, rfl⟩ turns
  rintro s turn ⟨c, rfl⟩
  obtain ⟨c', hstate, -⟩ := c.exists_step turn
  exact ⟨c', hstate⟩

variable {c c' c'' : Situation T} {u r : T} {n m h : Ref} {p q : Place T}

theorem LeadsTo.trans (h : c.LeadsTo c') (h' : c'.LeadsTo c'') : c.LeadsTo c'' := Reaches.trans h h'

theorem Takes.place_self (ht : c.Takes t q c') : c'.place t = q := by
  rw [ht.place, Function.update_self]

theorem Takes.place_of_ne (ht : c.Takes t q c') (hut : u ≠ t) : c'.place u = c.place u := by
  rw [ht.place, Function.update_of_ne hut]

omit [DecidableEq T] in
theorem queued_eq (c : Situation T) : c.shared.queued = c.waiting ++ c.shared.promoted :=
  c.follows.inv.linked.queued

omit [DecidableEq T] in
/-- The queue is the same as long as no node is appended and no thread becomes its head. -/
theorem waiting_eq (hqueued : c'.shared.queued = c.shared.queued)
    (hpromoted : c'.shared.promoted = c.shared.promoted) : c'.waiting = c.waiting := by
  rw [queued_eq, queued_eq, hpromoted] at hqueued
  exact List.append_cancel_right hqueued

end Situation

end BigPlan.QueuedSynchronizer.Exclusive
