import BigPlan.Lib.Runs
import BigPlan.Uid.CachedUidGenerator

/-!
# Paddings that fail

The loop of `paddingBuffer` in steps, for any provider and any rejection handler: each of their
calls may throw. Any number of threads call `paddingBuffer`, with takes in between. The flag
`running` lets one of them into the loop and is reset at the end of the loop only.
-/
namespace BigPlan.Uid

open Lib.Java Lib.Runs

/-- Where a thread is in the loop. A list of the provider may have `null` in it. -/
inductive PaddingLoop where
  | asking
  | putting (uidList : List (Option JLong))
  | ending
  deriving DecidableEq, Repr

/-- The loop over the uids goes on, or the next second is asked for. -/
def PaddingLoop.next : List (Option JLong) → PaddingLoop
  | [] => .asking
  | uidList => .putting uidList

structure Paddings (ι : Type) where
  ringBuffer : RingBuffer
  running : Bool
  lastSecond : JLong
  loops : ι → Option PaddingLoop

inductive PaddingLabel (ι : Type) where
  | paddingBuffer (thread : ι)
  /-- `none` is a provider that throws or returns `null`. -/
  | provide (thread : ι) (uidList : Option (List (Option JLong)))
  /-- The handler throws or not, should the put be refused. -/
  | put (thread : ι) (throws : Bool)
  | finish (thread : ι)
  | take

namespace Paddings

variable {ι : Type} [DecidableEq ι]

def start (ringBuffer : RingBuffer) (lastSecond : JLong) : Paddings ι :=
  { ringBuffer, running := false, lastSecond, loops := fun _ => none }

def setLoop (s : Paddings ι) (thread : ι) (loop : Option PaddingLoop) : Paddings ι :=
  { s with loops := Function.update s.loops thread loop }

def put (s : Paddings ι) (thread : ι) (throws : Bool) : Option PaddingLoop → Paddings ι
  | some (.putting (none :: _)) => s.setLoop thread none
  | some (.putting (some uid :: uidList)) =>
    match s.ringBuffer.put uid with
    | (ringBuffer, true) => { s with ringBuffer }.setLoop thread (some (.next uidList))
    | (ringBuffer, false) =>
      { s with ringBuffer }.setLoop thread (if throws then none else some .ending)
  | _ => s

def step (s : Paddings ι) : PaddingLabel ι → Paddings ι
  | .paddingBuffer thread =>
    match s.loops thread with
    | some _ => s
    | none => if s.running then s else { s with running := true }.setLoop thread (some .asking)
  | .provide thread uidList =>
    match s.loops thread with
    | some .asking =>
      { s with lastSecond := s.lastSecond + 1 }.setLoop thread (uidList.map .next)
    | _ => s
  | .put thread throws => s.put thread throws (s.loops thread)
  | .finish thread =>
    match s.loops thread with
    | some .ending => { s with running := false }.setLoop thread none
    | _ => s
  | .take => { s with ringBuffer := s.ringBuffer.take.1 }

/-- The put takes a `null`, or it is refused and the handler throws. -/
def PutFails (ringBuffer : RingBuffer) (throws : Bool) : Option PaddingLoop → Prop
  | some (.putting (none :: _)) => True
  | some (.putting (some uid :: _)) => (ringBuffer.put uid).2 = false ∧ throws = true
  | _ => False

instance (ringBuffer : RingBuffer) (throws : Bool) : DecidablePred (PutFails ringBuffer throws)
  | some (.putting (none :: _)) => isTrue trivial
  | some (.putting (some uid :: _)) =>
    inferInstanceAs (Decidable ((ringBuffer.put uid).2 = false ∧ throws = true))
  | some (.putting []) | some .asking | some .ending | none => isFalse id

/-- The step in which an exception ends a call of `paddingBuffer`. -/
def Fails (s : Paddings ι) : PaddingLabel ι → Prop
  | .provide thread uidList => s.loops thread = some .asking ∧ uidList = none
  | .put thread throws => PutFails s.ringBuffer throws (s.loops thread)
  | _ => False

instance (s : Paddings ι) : DecidablePred s.Fails
  | .provide thread uidList =>
    inferInstanceAs (Decidable (s.loops thread = some .asking ∧ uidList = none))
  | .put thread throws =>
    inferInstanceAs (Decidable (PutFails s.ringBuffer throws (s.loops thread)))
  | .paddingBuffer _ | .finish _ | .take => isFalse id

def Idle (s : Paddings ι) : Prop := ∀ thread, s.loops thread = none

/-- When no call is in the loop, the flag is down: the next call enters the loop, and the first
uid that it is provided with is put into the ring unless that is full. -/
def Survives (s : Paddings ι) : Prop :=
  s.Idle → s.running = false ∧ ∀ thread,
    (s.step (.paddingBuffer thread)).loops thread = some .asking ∧
    ∀ uid uidList throws, (s.ringBuffer.put uid).2 = true →
      ∃ first, (run step s [.paddingBuffer thread, .provide thread (some (some uid :: uidList)),
        .put thread throws]).ringBuffer.take.2 = .ok first

variable {s : Paddings ι} {thread other : ι} {label : PaddingLabel ι}

/-- The ways in which a step can change the loops and the flag: not at all, by letting a thread
in, by moving a thread on or throwing it out, or by letting it out at the end. -/
inductive Transition (s : Paddings ι) (label : PaddingLabel ι) : Paddings ι → Prop
  | stays {s' : Paddings ι} (hloops : s'.loops = s.loops) (hrunning : s'.running = s.running)
      (hsafe : ¬ s.Fails label) : Transition s label s'
  | enters {s' : Paddings ι} (thread : ι) (hidle : s.running = false)
      (hloops : s'.loops = Function.update s.loops thread (some .asking))
      (hrunning : s'.running = true) (hsafe : ¬ s.Fails label) : Transition s label s'
  | moves {s' : Paddings ι} (thread : ι) (loop : Option PaddingLoop)
      (hinside : s.loops thread ≠ none) (hloops : s'.loops = Function.update s.loops thread loop)
      (hrunning : s'.running = s.running) (hfails : loop = none ↔ s.Fails label) :
      Transition s label s'
  | leaves {s' : Paddings ι} (thread : ι) (hinside : s.loops thread ≠ none)
      (hloops : s'.loops = Function.update s.loops thread none) (hrunning : s'.running = false)
      (hsafe : ¬ s.Fails label) : Transition s label s'

theorem transition_paddingBuffer (s : Paddings ι) (thread : ι) :
    Transition s (.paddingBuffer thread) (s.step (.paddingBuffer thread)) := by
  simp only [step]
  cases hloop : s.loops thread with
  | some loop => exact .stays rfl rfl id
  | none =>
    dsimp only
    by_cases hrunning : s.running = true
    · rw [if_pos hrunning]
      exact .stays rfl rfl id
    · rw [if_neg hrunning]
      exact .enters thread (by simpa using hrunning) rfl rfl id

theorem transition_provide (s : Paddings ι) (thread : ι) (uidList : Option (List (Option JLong))) :
    Transition s (.provide thread uidList) (s.step (.provide thread uidList)) := by
  simp only [step]
  split
  · rename_i hloop
    refine .moves thread (uidList.map .next) (by simp [hloop]) rfl rfl ?_
    simp [Fails, hloop]
  · rename_i hloop
    exact .stays rfl rfl fun h => hloop h.1

theorem transition_put (s : Paddings ι) (thread : ι) (throws : Bool) :
    Transition s (.put thread throws) (s.step (.put thread throws)) := by
  have hfails : s.Fails (.put thread throws) ↔ PutFails s.ringBuffer throws (s.loops thread) :=
    Iff.rfl
  simp only [step]
  cases hloop : s.loops thread with
  | none => exact .stays rfl rfl (by simp [hfails, hloop, PutFails])
  | some loop =>
    rw [hloop] at hfails
    match loop, hloop with
    | .asking, _ => exact .stays rfl rfl (by simp [hfails, PutFails])
    | .ending, _ => exact .stays rfl rfl (by simp [hfails, PutFails])
    | .putting [], _ => exact .stays rfl rfl (by simp [hfails, PutFails])
    | .putting (none :: uidList), hloop =>
      exact .moves thread none (by simp [hloop]) rfl rfl (iff_of_true rfl (hfails.mpr trivial))
    | .putting (some uid :: uidList), hloop =>
      simp only [PutFails] at hfails
      cases hput : s.ringBuffer.put uid with
      | mk ringBuffer accepted =>
        rw [hput] at hfails
        cases accepted with
        | true =>
          simp only [put, hput]
          refine .moves thread _ (by simp [hloop]) rfl rfl (iff_of_false nofun ?_)
          rw [hfails]
          exact fun h => Bool.noConfusion h.1
        | false =>
          simp only [put, hput]
          refine .moves thread _ (by simp [hloop]) rfl rfl ?_
          rw [hfails]
          cases throws <;> simp

theorem transition_step (s : Paddings ι) (label : PaddingLabel ι) :
    Transition s label (s.step label) := by
  cases label with
  | paddingBuffer thread => exact transition_paddingBuffer s thread
  | provide thread uidList => exact transition_provide s thread uidList
  | put thread throws => exact transition_put s thread throws
  | finish thread =>
    simp only [step]
    split
    · rename_i hloop
      exact .leaves thread (by simp [hloop]) rfl rfl id
    · exact .stays rfl rfl id
  | take => exact .stays rfl rfl id

/-- At most one thread is in the loop, and only while the flag is up. -/
structure Exclusive (s : Paddings ι) : Prop where
  running : ∀ thread, s.loops thread ≠ none → s.running = true
  one : ∀ thread other, s.loops thread ≠ none → s.loops other ≠ none → thread = other

theorem Exclusive.transition {s' : Paddings ι} (h : s.Exclusive) (ht : Transition s label s') :
    s'.Exclusive := by
  cases ht with
  | stays hloops hrunning =>
    refine ⟨?_, ?_⟩
    · rw [hloops, hrunning]
      exact h.running
    · rw [hloops]
      exact h.one
  | enters thread hidle hloops hrunning =>
    have hnone : ∀ t, t ≠ thread → s'.loops t = none := by
      intro t hne
      rw [hloops, Function.update_of_ne hne]
      by_contra hinside
      rw [h.running t hinside] at hidle
      cases hidle
    refine ⟨fun _ _ => hrunning, fun t t' ht ht' => ?_⟩
    rw [not_imp_comm.mp (hnone t) ht, not_imp_comm.mp (hnone t') ht']
  | moves thread loop hinside hloops hrunning hfails =>
    have hold : ∀ t, s'.loops t ≠ none → s.loops t ≠ none := by
      intro t ht
      by_cases hsame : t = thread
      · rw [hsame]
        exact hinside
      · rwa [hloops, Function.update_of_ne hsame] at ht
    refine ⟨fun t ht => ?_, fun t t' ht ht' => h.one t t' (hold t ht) (hold t' ht')⟩
    rw [hrunning]
    exact h.running t (hold t ht)
  | leaves thread hinside hloops hrunning =>
    have hnone : ∀ t, s'.loops t = none := by
      intro t
      by_cases hsame : t = thread
      · rw [hloops, hsame, Function.update_self]
      · rw [hloops, Function.update_of_ne hsame]
        by_contra hother
        exact hsame (h.one t thread hother hinside)
    exact ⟨fun t ht => absurd (hnone t) ht, fun t _ ht => absurd (hnone t) ht⟩

/-- A step that fails leaves the flag up with nobody in the loop. -/
theorem Exclusive.stuck {s' : Paddings ι} (h : s.Exclusive) (ht : Transition s label s')
    (hfails : s.Fails label) : s'.Idle ∧ s'.running = true := by
  cases ht with
  | stays _ _ hsafe => exact absurd hfails hsafe
  | enters _ _ _ _ hsafe => exact absurd hfails hsafe
  | leaves _ _ _ _ hsafe => exact absurd hfails hsafe
  | moves thread loop hinside hloops hrunning hiff =>
    refine ⟨fun t => ?_, hrunning.trans (h.running thread hinside)⟩
    by_cases hsame : t = thread
    · rw [hloops, hsame, Function.update_self, hiff.mpr hfails]
    · rw [hloops, Function.update_of_ne hsame]
      by_contra hother
      exact hsame (h.one t thread hother hinside)

/-- Any other step keeps the flag down while nobody is in the loop. -/
theorem down_of_transition {s' : Paddings ι} (hdown : s.Idle → s.running = false)
    (ht : Transition s label s') (hsafe : ¬ s.Fails label) : s'.Idle → s'.running = false := by
  intro hidle
  cases ht with
  | stays hloops hrunning =>
    rw [hrunning]
    refine hdown ?_
    intro t
    rw [← hloops]
    exact hidle t
  | enters thread _ hloops =>
    have hinside := hidle thread
    rw [hloops, Function.update_self] at hinside
    cases hinside
  | moves thread loop _ hloops _ hiff =>
    have hinside := hidle thread
    rw [hloops, Function.update_self] at hinside
    exact absurd (hiff.mp hinside) hsafe
  | leaves _ _ _ hrunning => exact hrunning

/-- The ring stands for a queue of uids. -/
def Stocked (s : Paddings ι) : Prop := ∃ k stock, s.ringBuffer.Represents k stock

theorem stocked_put {r : RingBuffer} {k : ℕ} {stock : List JLong} (h : r.Represents k stock)
    (uid : JLong) : ∃ stock', (r.put uid).1.Represents k stock' ∧
      ((r.put uid).2 = true → stock' ≠ []) := by
  rcases Nat.lt_or_ge stock.length r.capacity with hroom | hfull
  · obtain ⟨r', hput, hrep, -⟩ := RingBuffer.put_of_room h hroom uid
    rw [hput]
    exact ⟨_, hrep, fun _ => by simp⟩
  · have hfits := h.fits
    rw [RingBuffer.put_of_full h (by omega)]
    exact ⟨stock, h, fun hput => by cases hput⟩

theorem put_eq {uid : JLong} {uidList : List (Option JLong)}
    (hloop : s.loops thread = some (.putting (some uid :: uidList))) (throws : Bool) :
    s.step (.put thread throws) = ({ s with ringBuffer := (s.ringBuffer.put uid).1 }.setLoop thread
      (if (s.ringBuffer.put uid).2 = true then some (.next uidList)
        else if throws then none else some .ending)) := by
  simp only [step, hloop, put]
  cases s.ringBuffer.put uid with
  | mk ringBuffer accepted => cases accepted <;> rfl

theorem stocked_take {r : RingBuffer} {k : ℕ} {stock : List JLong} (h : r.Represents k stock) :
    ∃ stock', r.take.1.Represents k stock' := by
  cases stock with
  | nil =>
    obtain ⟨r', e, htake, hrep, -⟩ := RingBuffer.take_nil h
    rw [htake]
    exact ⟨_, hrep⟩
  | cons uid stock =>
    obtain ⟨r', htake, hrep, -⟩ := RingBuffer.take_cons h
    rw [htake]
    exact ⟨_, hrep⟩

theorem stocked_step (h : s.Stocked) (label : PaddingLabel ι) : (s.step label).Stocked := by
  obtain ⟨k, stock, hrep⟩ := h
  cases label with
  | paddingBuffer thread =>
    simp only [step]
    split
    · exact ⟨k, stock, hrep⟩
    · split <;> exact ⟨k, stock, hrep⟩
  | provide thread uidList =>
    simp only [step]
    split <;> exact ⟨k, stock, hrep⟩
  | finish thread =>
    simp only [step]
    split <;> exact ⟨k, stock, hrep⟩
  | take =>
    obtain ⟨stock', hrep'⟩ := stocked_take hrep
    exact ⟨k, stock', hrep'⟩
  | put thread throws =>
    cases hloop : s.loops thread with
    | none => simpa [step, hloop, put] using ⟨k, stock, hrep⟩
    | some loop =>
      match loop, hloop with
      | .asking, hloop => simpa [step, hloop, put] using ⟨k, stock, hrep⟩
      | .ending, hloop => simpa [step, hloop, put] using ⟨k, stock, hrep⟩
      | .putting [], hloop => simpa [step, hloop, put] using ⟨k, stock, hrep⟩
      | .putting (none :: uidList), hloop =>
        simp only [step, hloop, put]
        exact ⟨k, stock, hrep⟩
      | .putting (some uid :: uidList), hloop =>
        obtain ⟨stock', hrep', -⟩ := stocked_put hrep uid
        rw [put_eq hloop]
        exact ⟨k, stock', hrep'⟩

theorem survives_of_down (hstocked : s.Stocked) (hdown : s.Idle → s.running = false) :
    s.Survives := by
  intro hidle
  have hrunning := hdown hidle
  refine ⟨hrunning, fun thread => ?_⟩
  have henters : s.step (.paddingBuffer thread) =
      ({ s with running := true }.setLoop thread (some .asking)) := by
    simp [step, hidle thread, hrunning]
  refine ⟨by simp [henters, setLoop], ?_⟩
  intro uid uidList throws haccepted
  obtain ⟨k, stock, hrep⟩ := hstocked
  obtain ⟨stock', hrep', hne⟩ := stocked_put hrep uid
  obtain ⟨first, rest, rfl⟩ := List.exists_cons_of_ne_nil (hne haccepted)
  obtain ⟨r', htake, -⟩ := RingBuffer.take_cons hrep'
  refine ⟨first, ?_⟩
  rw [run_cons, run_cons, run_cons, henters]
  have hprovided : ({ s with running := true }.setLoop thread (some .asking)).step
      (.provide thread (some (some uid :: uidList))) =
      { s with
        running := true
        lastSecond := s.lastSecond + 1
        loops := Function.update s.loops thread (some (.putting (some uid :: uidList))) } := by
    simp [step, setLoop, PaddingLoop.next]
  rw [hprovided, put_eq (Function.update_self _ _ _)]
  show (s.ringBuffer.put uid).1.take.2 = .ok first
  rw [htake]

/-- A thread that is in the loop gets out by an exception or at the end, and it gets to the end
by a put that was refused. -/
def GoesOn (s : Paddings ι) (label : PaddingLabel ι) (thread : ι) : Prop :=
  ((s.step label).loops thread = none → s.Fails label ∨ s.loops thread = some .ending) ∧
    ((s.step label).loops thread = some .ending → s.loops thread = some .ending ∨
      ∃ uid uidList, s.loops thread = some (.putting (some uid :: uidList)) ∧
        (s.ringBuffer.put uid).2 = false)

theorem goesOn_of_eq (hinside : s.loops thread ≠ none)
    (h : (s.step label).loops thread = s.loops thread) : s.GoesOn label thread :=
  ⟨fun hout => absurd (h ▸ hout) hinside, fun hend => .inl (h ▸ hend)⟩

theorem loops_put_of_ne (hne : thread ≠ other) (throws : Bool) (loop : Option PaddingLoop) :
    (s.put other throws loop).loops thread = s.loops thread := by
  unfold put
  split
  · exact Function.update_of_ne hne _ _
  · split <;> exact Function.update_of_ne hne _ _
  · rfl

theorem goesOn_put (hinside : s.loops thread ≠ none) (throws : Bool) :
    s.GoesOn (.put thread throws) thread := by
  cases hloop : s.loops thread with
  | none => exact absurd hloop hinside
  | some loop =>
    match loop, hloop with
    | .asking, hloop => exact goesOn_of_eq hinside (by simp [step, hloop, put])
    | .ending, hloop => exact goesOn_of_eq hinside (by simp [step, hloop, put])
    | .putting [], hloop => exact goesOn_of_eq hinside (by simp [step, hloop, put])
    | .putting (none :: uidList), hloop =>
      have hfails : s.Fails (.put thread throws) := by simp [Fails, hloop, PutFails]
      refine ⟨fun _ => .inl hfails, fun hend => ?_⟩
      simp [step, hloop, put, setLoop] at hend
    | .putting (some uid :: uidList), hloop =>
      cases hput : (s.ringBuffer.put uid).2 with
      | true =>
        have hon : (s.step (.put thread throws)).loops thread = some (.next uidList) := by
          simp [put_eq hloop, hput, setLoop]
        refine ⟨fun hout => ?_, fun hend => ?_⟩
        · rw [hon] at hout
          cases hout
        · rw [hon] at hend
          cases uidList <;> cases hend
      | false =>
        refine ⟨fun hout => .inl ?_, fun _ => .inr ⟨uid, uidList, hloop, hput⟩⟩
        have hthrows : throws = true := by
          by_contra hreturns
          simp [put_eq hloop, hput, hreturns, setLoop] at hout
        simp [Fails, hloop, PutFails, hput, hthrows]

theorem goesOn_step (s : Paddings ι) (label : PaddingLabel ι) (thread : ι)
    (hinside : s.loops thread ≠ none) : s.GoesOn label thread := by
  cases label with
  | take => exact goesOn_of_eq hinside rfl
  | paddingBuffer other =>
    refine goesOn_of_eq hinside ?_
    simp only [step]
    split
    · rfl
    · rename_i hother
      split
      · rfl
      · refine Function.update_of_ne ?_ _ _
        intro hsame
        rw [hsame] at hinside
        exact hinside hother
  | provide other uidList =>
    by_cases hsame : thread = other
    · subst hsame
      cases hloop : s.loops thread with
      | none => exact absurd hloop hinside
      | some loop =>
        cases loop with
        | putting uids => exact goesOn_of_eq hinside (by simp [step, hloop])
        | ending => exact goesOn_of_eq hinside (by simp [step, hloop])
        | asking =>
          have hon : (s.step (.provide thread uidList)).loops thread = uidList.map .next := by
            simp [step, hloop, setLoop]
          refine ⟨fun hout => .inl ⟨hloop, ?_⟩, fun hend => ?_⟩
          · simpa [hon] using hout
          · rw [hon, Option.map_eq_some_iff] at hend
            obtain ⟨uids, -, hnext⟩ := hend
            cases uids <;> cases hnext
    · refine goesOn_of_eq hinside ?_
      simp only [step]
      split
      · exact Function.update_of_ne hsame _ _
      · rfl
  | put other throws =>
    by_cases hsame : thread = other
    · subst hsame
      exact goesOn_put hinside throws
    · exact goesOn_of_eq hinside (loops_put_of_ne hsame throws _)
  | finish other =>
    by_cases hsame : thread = other
    · subst hsame
      cases hloop : s.loops thread with
      | none => exact absurd hloop hinside
      | some loop =>
        cases loop with
        | asking => exact goesOn_of_eq hinside (by simp [step, hloop])
        | putting uids => exact goesOn_of_eq hinside (by simp [step, hloop])
        | ending => exact ⟨fun _ => .inr hloop, fun _ => .inl hloop⟩
    · refine goesOn_of_eq hinside ?_
      simp only [step]
      split
      · exact Function.update_of_ne hsame _ _
      · rfl

/-- Over every run of a fresh ring: the buffer survives its paddings if and only if no call of
the provider or of the handler fails inside the loop. In every state a call that is in the loop
puts uids until a put is refused, or throws. -/
theorem survives_iff {bufferSize paddingFactor : JInt} {ringBuffer : RingBuffer}
    (hring : RingBuffer.new bufferSize paddingFactor = .ok ringBuffer) (lastSecond : JLong)
    (labels : List (PaddingLabel ι)) :
    (Throughout step Survives (start ringBuffer lastSecond) labels ↔
      Along step (fun s label => ¬ s.Fails label) (start ringBuffer lastSecond) labels) ∧
    ∀ (s : Paddings ι) (label : PaddingLabel ι) (thread : ι), s.loops thread ≠ none →
      s.GoesOn label thread := by
  refine ⟨throughout_iff_along (fun _ s => s.Exclusive ∧ s.Stocked ∧ (s.Idle → s.running = false))
    (fun s _ h => survives_of_down h.2.1 h.2.2) ?_ ?_ ?_, goesOn_step⟩
  · intro s label _ h hsafe
    have ht := transition_step s label
    exact ⟨h.1.transition ht, stocked_step h.2.1 label, down_of_transition h.2.2 ht hsafe⟩
  · intro s label _ h hfails hsurvives
    obtain ⟨hidle, hup⟩ := h.1.stuck (transition_step s label) (not_not.mp hfails)
    rw [(hsurvives hidle).1] at hup
    cases hup
  · obtain ⟨k, hrep⟩ := RingBuffer.new_represents hring
    exact ⟨⟨fun _ h => absurd rfl h, fun _ _ h => absurd rfl h⟩, ⟨k, [], hrep⟩, fun _ => rfl⟩

/-- Four slots, filled by one thread while another one finds the flag up. -/
theorem survives_iff_filled :
    ∃ ringBuffer, RingBuffer.new 4 50 = .ok ringBuffer ∧
      Throughout step Survives (start (ι := ℕ) ringBuffer 1)
        [.paddingBuffer 0, .provide 0 (some [some 1, some 2, some 3]), .put 0 true,
          .paddingBuffer 1, .put 0 true, .take, .put 0 true, .provide 0 (some [some 4, some 5]),
          .put 0 true, .put 0 false, .finish 0, .paddingBuffer 1] :=
  ⟨_, rfl, (@survives_iff ℕ _ 4 50 _ rfl 1 _).1.mpr (by decide +kernel)⟩

/-- The provider throws in the first padding. -/
theorem not_survives : ¬ ∀ (ringBuffer : RingBuffer) (labels : List (PaddingLabel ℕ)),
    RingBuffer.new 4 50 = .ok ringBuffer →
      Throughout step Survives (start ringBuffer 1) labels := by
  intro h
  obtain ⟨ringBuffer, hring⟩ : ∃ ringBuffer, RingBuffer.new 4 50 = .ok ringBuffer := ⟨_, rfl⟩
  have hlast := (h ringBuffer [.paddingBuffer 0, .provide 0 none] hring).last
  have hidle : (run step (start ringBuffer 1) [.paddingBuffer 0, .provide 0 none]).Idle := by
    intro thread
    simp [run, step, start, setLoop]
  have hdown : true = false := (hlast hidle).1
  cases hdown

/-! ## Paddings that do not fail -/

/-- The state in which the thread is in the loop, and all others are out of it. -/
def inLoop (thread : ι) (ringBuffer : RingBuffer) (lastSecond : JLong) (loop : PaddingLoop) :
    Paddings ι :=
  { ringBuffer, running := true, lastSecond
    loops := Function.update (fun _ => none) thread (some loop) }

theorem exists_run_putAll (thread : ι) (lastSecond : JLong) (r : RingBuffer) (uidList : List JLong) :
    ∃ labels, run step (inLoop thread r lastSecond (.next (uidList.map some))) labels =
      inLoop thread (BufferPaddingExecutor.putAll r uidList).1 lastSecond
        (if (BufferPaddingExecutor.putAll r uidList).2.2 then .ending else .asking) := by
  induction uidList generalizing r with
  | nil => exact ⟨[], rfl⟩
  | cons uid uidList ih =>
    have hloop : (inLoop thread r lastSecond (.next ((uid :: uidList).map some))).loops thread =
        some (.putting (some uid :: uidList.map some)) := by
      simp [inLoop, PaddingLoop.next]
    have hput := put_eq hloop false
    cases hr : r.put uid with
    | mk r' accepted =>
      cases accepted with
      | true =>
        obtain ⟨labels, hrun⟩ := ih r'
        refine ⟨.put thread false :: labels, ?_⟩
        rw [run_cons, hput]
        simp only [BufferPaddingExecutor.putAll, hr]
        rw [← hrun]
        simp [inLoop, setLoop, hr]
      | false =>
        refine ⟨[.put thread false], ?_⟩
        rw [run_cons, hput]
        simp [BufferPaddingExecutor.putAll, inLoop, setLoop, hr, run]

theorem exists_run_fill (thread : ι) {provide : JLong → List JLong} {fuel : ℕ}
    {r r' : RingBuffer} {ex ex' : BufferPaddingExecutor}
    (h : BufferPaddingExecutor.fill provide fuel r ex = some (r', ex')) :
    ∃ labels, run step (inLoop thread r ex.lastSecond .asking) labels =
      inLoop thread r' ex'.lastSecond .ending := by
  induction fuel generalizing r ex with
  | zero => cases h
  | succ fuel ih =>
    obtain ⟨puts, hputs⟩ :=
      exists_run_putAll thread (ex.lastSecond + 1) r (provide (ex.lastSecond + 1))
    have hprovide : (inLoop thread r ex.lastSecond .asking).step
        (.provide thread (some ((provide (ex.lastSecond + 1)).map some))) =
        inLoop thread r (ex.lastSecond + 1) (.next ((provide (ex.lastSecond + 1)).map some)) := by
      simp [step, inLoop, setLoop]
    simp only [BufferPaddingExecutor.fill] at h
    by_cases hfull : (BufferPaddingExecutor.putAll r (provide (ex.lastSecond + 1))).2.2 = true
    · rw [if_pos hfull] at h hputs
      cases h
      exact ⟨_ :: puts, by rw [run_cons, hprovide, hputs]⟩
    · rw [if_neg hfull] at h hputs
      obtain ⟨labels, hlabels⟩ := ih h
      refine ⟨.provide thread (some ((provide (ex.lastSecond + 1)).map some)) :: (puts ++ labels), ?_⟩
      rw [run_cons, hprovide, run, List.foldl_append]
      exact (congrArg (fun s => run step s labels) hputs).trans hlabels

/-- A complete padding of the generator is a run of one thread. -/
theorem exists_run_paddingBuffer (thread : ι) {g g' : CachedUidGenerator}
    (hidle : g.bufferPaddingExecutor.running = false) (h : g.paddingBuffer = some g') :
    ∃ labels, run step (start g.ringBuffer g.bufferPaddingExecutor.lastSecond) labels =
      start (ι := ι) g'.ringBuffer g'.bufferPaddingExecutor.lastSecond := by
  simp only [CachedUidGenerator.paddingBuffer, hidle, Bool.false_eq_true, if_false] at h
  split at h
  · cases h
  · rename_i r' ex' hfill
    obtain ⟨labels, hlabels⟩ := exists_run_fill thread hfill
    cases h
    refine ⟨.paddingBuffer thread :: (labels ++ [.finish thread]), ?_⟩
    have henter : (start g.ringBuffer g.bufferPaddingExecutor.lastSecond : Paddings ι).step
        (.paddingBuffer thread) =
        inLoop thread g.ringBuffer g.bufferPaddingExecutor.lastSecond .asking := by
      simp [step, start, inLoop, setLoop]
    have hfinish : (inLoop thread r' ex'.lastSecond .ending).step (.finish thread) =
        start r' ex'.lastSecond := by
      simp [step, start, inLoop, setLoop]
    rw [run_cons, henter, run, List.foldl_append]
    exact (congrArg (fun s => s.step (.finish thread)) hlabels).trans hfinish

end Paddings

end BigPlan.Uid
