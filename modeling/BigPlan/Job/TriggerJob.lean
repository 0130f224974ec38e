import Mathlib.Data.List.Count
import Mathlib.Logic.Function.Basic
import Mathlib.Order.Iterate
import BigPlan.Lib.Runs

/-!
# One run for each fire

All nodes of the cluster fire a job, and `TriggerJob.lockToDo` is to let one of them run it.
A node reads a version, takes the lock, and runs the job if the version is still the one it
read; every node increments the version before it unlocks.
-/
namespace BigPlan.Job

open Lib.Runs

/-- Where a node is in `lockToDo`, with the version that it read before the lock. -/
inductive Pc
  | idle
  | versionRead (version : Option Int)
  | locked (version : Option Int)
  | accepting (version : Option Int)
  | finishing
  | incremented
  deriving DecidableEq

/-- A node runs `lockToDo` once for each fire, one fire after the other. -/
structure Node where
  fire : Nat
  pc : Pc
  deriving DecidableEq

/-- A call of the consumer. -/
structure Consumption (n : Nat) where
  node : Fin n
  fire : Nat
  version : Option Int
  deriving DecidableEq

structure Cluster (n : Nat) where
  nodes : Fin n → Node
  lock : Option (Fin n)
  version : Option Int
  consumed : List (Consumption n)

/-- `INCR`: a key that is not there counts as 0. -/
def increment (version : Option Int) : Option Int := some (version.getD 0 + 1)

namespace Cluster

variable {n : Nat} (s : Cluster n) (i : Fin n)

def start (version : Option Int) : Cluster n := ⟨fun _ => ⟨0, .idle⟩, none, version, []⟩

/-- The cluster after a step of one node. -/
def put (node : Node) : Cluster n := { s with nodes := Function.update s.nodes i node }

def setPc (pc : Pc) : Cluster n := s.put i { s.nodes i with pc := pc }

/-- The next step of one node in `lockToDo`. -/
def step (s : Cluster n) (i : Fin n) : Cluster n :=
  match (s.nodes i).pc with
  | .idle => s.setPc i (.versionRead s.version)
  -- `tryLock` waits while another node has the lock
  | .versionRead version =>
    if s.lock = none then { s.setPc i (.locked version) with lock := some i } else s
  | .locked version =>
    let current := s.version
    if version ≠ current then s.setPc i .finishing else s.setPc i (.accepting version)
  | .accepting version =>
    { s.setPc i .finishing with
      consumed := s.consumed ++ [⟨i, (s.nodes i).fire, version⟩] }
  -- the `finally` block, after a run and after a return
  | .finishing => { s.setPc i .incremented with version := increment s.version }
  | .incremented => { s.put i ⟨(s.nodes i).fire + 1, .idle⟩ with lock := none }

/-- The number of runs of one fire. -/
def runsOf (fire : Nat) : Nat := s.consumed.countP fun c => c.fire = fire

/-- No fire is run twice, and a fire that all nodes are done with has been run. -/
def RunsOnce (s : Cluster n) : Prop :=
  ∀ fire, s.runsOf fire ≤ 1 ∧
    ((∀ i, fire < (s.nodes i).fire) → s.runsOf fire = 1)

end Cluster

/-- How often a node has incremented the version. -/
def Node.increments (node : Node) : Nat :=
  node.fire + if node.pc = .incremented then 1 else 0

namespace Cluster

variable {n : Nat}

/-- A node reads the version for a fire when all nodes have incremented it for the fires
before, and none for this one. -/
def ReadsInStep (s : Cluster n) (i : Fin n) : Prop :=
  (s.nodes i).pc = .idle → ∀ j, (s.nodes j).increments = (s.nodes i).fire

instance (s : Cluster n) (i : Fin n) : Decidable (s.ReadsInStep i) := by
  unfold ReadsInStep
  infer_instance

end Cluster

/-! ## Rounds

The nodes that read in step are in one round: each has read the version of the round, or has
not read since the round before, or is done with the round. -/

/-- The node is at a place where it has the lock. -/
def Pc.critical : Pc → Bool
  | .idle | .versionRead _ => false
  | .locked _ | .accepting _ | .finishing | .incremented => true

def Node.InRound (round : Nat) (read : Option Int) (node : Node) : Prop :=
  match node.pc with
  | .idle => node.fire = round ∨ node.fire = round + 1
  | .versionRead version | .locked version | .accepting version =>
    node.fire = round ∧ version = read
  | .finishing => node.fire = round
  | .incremented => node.fire = round ∨ node.fire + 1 = round

namespace Cluster

variable {n : Nat} {s : Cluster n} {i j : Fin n} {round fire : Nat} {read : Option Int}

/-- A node has incremented the version in this round. -/
def Incremented (s : Cluster n) (round : Nat) : Prop := ∃ j, round < (s.nodes j).increments

/-- The fires that have been run: those of the rounds before, and that of the round once a
node has come through the comparison or the run. -/
def Taken (s : Cluster n) (round fire : Nat) : Prop :=
  fire < round ∨ fire = round ∧ (s.Incremented round ∨ ∃ j, (s.nodes j).pc = .finishing)

/-- The nodes are in one round, in which they read one version. -/
structure InRound (s : Cluster n) (round : Nat) (read : Option Int) : Prop where
  nodes : ∀ j, (s.nodes j).InRound round read
  holder : ∀ j, (s.nodes j).pc.critical = true → s.lock = some j
  version : ∃ k, s.version = increment^[k] read ∧ (k = 0 ↔ ¬ s.Incremented round)
  accepting : ∀ j version, (s.nodes j).pc = .accepting version → ¬ s.Incremented round
  taken : ∀ fire, s.Taken round fire → s.runsOf fire = 1
  untaken : ∀ fire, ¬ s.Taken round fire → s.runsOf fire = 0

theorem inRound_start (version : Option Int) :
    (start version : Cluster n).InRound 0 version := by
  have hincremented : ¬ (start version : Cluster n).Incremented 0 := by
    intro hexists
    obtain ⟨j, hj⟩ := hexists
    simp [start, Node.increments] at hj
  constructor
  · intro j
    exact .inl rfl
  · intro j hcritical
    cases hcritical
  · exact ⟨0, rfl, iff_of_true rfl hincremented⟩
  · intro j version hpc
    cases hpc
  · rintro fire (hfire | ⟨-, hincr | ⟨j, hpc⟩⟩)
    · omega
    · exact (hincremented hincr).elim
    · cases hpc
  · intro fire _
    rfl

/-- Two nodes that have the lock are one. -/
theorem InRound.eq_of_critical (h : s.InRound round read)
    (hi : (s.nodes i).pc.critical = true) (hj : (s.nodes j).pc.critical = true) : j = i :=
  Option.some.inj ((h.holder j hj).symm.trans (h.holder i hi))

theorem increment_iterate_ne (k : Nat) (version : Option Int) :
    increment^[k + 1] version ≠ version := by
  have hsum : increment^[k + 1] version = some (version.getD 0 + k + 1) := by
    induction k with
    | zero => simp [increment]
    | succ k ih =>
      rw [Function.iterate_succ_apply', ih]
      simp only [increment, Option.getD_some, Option.some.injEq]
      omega
  intro h
  rw [hsum] at h
  cases version with
  | none => cases h
  | some version =>
    have hsame := Option.some.inj h
    rw [Option.getD_some] at hsame
    omega

/-- The version is the one that the round reads exactly until a node increments it. -/
theorem InRound.version_eq_iff (h : s.InRound round read) :
    s.version = read ↔ ¬ s.Incremented round := by
  obtain ⟨k, hk, hincr⟩ := h.version
  rw [← hincr, hk]
  cases k with
  | zero => simp
  | succ k => exact iff_of_false (increment_iterate_ne k read) (Nat.succ_ne_zero k)

/-- A fire that all nodes are done with is taken. -/
theorem InRound.runsOnce (h : s.InRound round read) (hn : 0 < n) : s.RunsOnce := by
  intro fire
  constructor
  · by_cases hfire : s.Taken round fire
    · exact (h.taken fire hfire).le
    · exact (h.untaken fire hfire).trans_le (Nat.zero_le 1)
  · intro hall
    have hfire := hall ⟨0, hn⟩
    have hnode := h.nodes ⟨0, hn⟩
    apply h.taken fire
    rcases Nat.lt_or_ge fire round with hlt | hge
    · exact .inl hlt
    · refine .inr ⟨?_, .inl ⟨⟨0, hn⟩, ?_⟩⟩
      · unfold Node.InRound at hnode
        split at hnode <;> omega
      · unfold Node.increments
        omega

/-! ### Steps -/

variable {node : Node} {lock : Option (Fin n)} {version : Option Int}

theorem put_self : (s.put i node).nodes i = node := Function.update_self ..

theorem put_of_ne (h : j ≠ i) : (s.put i node).nodes j = s.nodes j :=
  Function.update_of_ne h ..

theorem incremented_put (h : node.increments = (s.nodes i).increments) :
    (s.put i node).Incremented round ↔ s.Incremented round := by
  have hj : ∀ j, ((s.put i node).nodes j).increments = (s.nodes j).increments := by
    intro j
    by_cases hj : j = i
    · rw [hj, put_self, h]
    · rw [put_of_ne hj]
  simp only [Incremented, hj]

theorem InRound.nodes_put (h : s.InRound round read) (hnode : node.InRound round read) (j : Fin n) :
    ((s.put i node).nodes j).InRound round read := by
  by_cases hj : j = i
  · rwa [hj, put_self]
  · rw [put_of_ne hj]
    exact h.nodes j

/-- The node that has the lock keeps it. -/
theorem InRound.holder_put (h : s.InRound round read) (hi : (s.nodes i).pc.critical = true)
    (j : Fin n) (hj : ((s.put i node).nodes j).pc.critical = true) : s.lock = some j := by
  by_cases hji : j = i
  · rw [hji]
    exact h.holder i hi
  · rw [put_of_ne hji] at hj
    exact h.holder j hj

theorem InRound.accepting_put (h : s.InRound round read)
    (haccepting : ∀ version, node.pc = .accepting version → ¬ s.Incremented round) (j : Fin n)
    (version : Option Int) (hj : ((s.put i node).nodes j).pc = .accepting version) :
    ¬ s.Incremented round := by
  by_cases hji : j = i
  · rw [hji, put_self] at hj
    exact haccepting version hj
  · rw [put_of_ne hji] at hj
    exact h.accepting j version hj

/-- A step that neither increments the version nor decides on a run. -/
theorem InRound.quiet (h : s.InRound round read)
    (hincrements : node.increments = (s.nodes i).increments)
    (hfinishing : node.pc = .finishing ↔ (s.nodes i).pc = .finishing)
    (hnode : node.InRound round read)
    (hholder : ∀ j, ((s.put i node).nodes j).pc.critical = true → lock = some j)
    (haccepting : ∀ version, node.pc = .accepting version → ¬ s.Incremented round) :
    InRound { s.put i node with lock := lock } round read := by
  have hincr : Incremented { s.put i node with lock := lock } round ↔ s.Incremented round :=
    incremented_put hincrements
  have hfinish : ∀ j, ((s.put i node).nodes j).pc = .finishing ↔
      (s.nodes j).pc = .finishing := by
    intro j
    by_cases hj : j = i
    · rw [hj, put_self, hfinishing]
    · rw [put_of_ne hj]
  have htaken : ∀ fire, Taken { s.put i node with lock := lock } round fire ↔
      s.Taken round fire := by
    intro fire
    simp only [Taken, hincr, hfinish]
  constructor
  · exact h.nodes_put hnode
  · exact hholder
  · rw [hincr]
    exact h.version
  · rw [hincr]
    exact h.accepting_put haccepting
  · intro fire hfire
    exact h.taken fire ((htaken fire).mp hfire)
  · intro fire hfire
    exact h.untaken fire (mt (htaken fire).mpr hfire)

theorem inRound_lock (h : s.InRound round read) (hi : (s.nodes i).pc = .versionRead version)
    (hlock : s.lock = none) :
    InRound { s.setPc i (.locked version) with lock := some i } round read := by
  have hnode := h.nodes i
  simp only [Node.InRound, hi] at hnode
  apply h.quiet
  · simp [Node.increments, hi]
  · simp [hi]
  · exact hnode
  · intro j hcritical
    by_cases hj : j = i
    · rw [hj]
    · rw [put_of_ne hj] at hcritical
      exact nomatch hlock.symm.trans (h.holder j hcritical)
  · simp

theorem inRound_unlock (h : s.InRound round read) (hi : (s.nodes i).pc = .incremented) :
    InRound { s.put i ⟨(s.nodes i).fire + 1, .idle⟩ with lock := none } round read := by
  have hnode := h.nodes i
  simp only [Node.InRound, hi] at hnode
  apply h.quiet
  · simp [Node.increments, hi]
  · simp [hi]
  · rcases hnode with hnode | hnode
    · exact .inr (congrArg (· + 1) hnode)
    · exact .inl hnode
  · intro j hcritical
    by_cases hj : j = i
    · rw [hj, put_self] at hcritical
      cases hcritical
    · rw [put_of_ne hj] at hcritical
      exact absurd (h.eq_of_critical (by rw [hi]; rfl) hcritical) hj
  · simp

/-- A node whose version is still current goes on to the run, and no one is done yet. -/
theorem inRound_accept (h : s.InRound round read) (hi : (s.nodes i).pc = .locked version)
    (hsame : version = s.version) : (s.setPc i (.accepting version)).InRound round read := by
  have hnode := h.nodes i
  simp only [Node.InRound, hi] at hnode
  have hincr : ¬ s.Incremented round := h.version_eq_iff.mp (hsame.symm.trans hnode.2)
  apply h.quiet
  · simp [Node.increments, hi]
  · simp [hi]
  · exact hnode
  · exact h.holder_put (by rw [hi]; rfl)
  · intro _ _
    exact hincr

/-- A node whose version is not current any more returns: another node is done. -/
theorem inRound_return (h : s.InRound round read) (hi : (s.nodes i).pc = .locked version)
    (hchanged : version ≠ s.version) : (s.setPc i .finishing).InRound round read := by
  have hnode := h.nodes i
  simp only [Node.InRound, hi] at hnode
  have hincr : s.Incremented round := by
    by_contra hnot
    exact hchanged (hnode.2.trans (h.version_eq_iff.mpr hnot).symm)
  have hincr' : (s.setPc i .finishing).Incremented round ↔ s.Incremented round :=
    incremented_put (by simp [Node.increments, hi])
  have htaken : ∀ fire, (s.setPc i .finishing).Taken round fire ↔ s.Taken round fire := by
    intro fire
    simp only [Taken, hincr', hincr, true_or]
  constructor
  · exact h.nodes_put hnode.1
  · exact h.holder_put (by rw [hi]; rfl)
  · rw [hincr']
    exact h.version
  · rw [hincr']
    exact h.accepting_put nofun
  · intro fire hfire
    exact h.taken fire ((htaken fire).mp hfire)
  · intro fire hfire
    exact h.untaken fire (mt (htaken fire).mpr hfire)

theorem runsOf_append {s' : Cluster n} {c : Consumption n}
    (h : s'.consumed = s.consumed ++ [c]) (fire : Nat) :
    s'.runsOf fire = s.runsOf fire + if fire = c.fire then 1 else 0 := by
  simp [runsOf, h, List.countP_append, List.countP_cons, eq_comm]

/-- The run is the first of its fire, and takes it. -/
theorem inRound_consume (h : s.InRound round read)
    (hi : (s.nodes i).pc = .accepting version) :
    InRound { s.setPc i .finishing with
      consumed := s.consumed ++ [⟨i, (s.nodes i).fire, version⟩] } round read := by
  have hnode := h.nodes i
  simp only [Node.InRound, hi] at hnode
  have hcritical : (s.nodes i).pc.critical = true := by rw [hi]; rfl
  have hincr : ¬ s.Incremented round := h.accepting i version hi
  have hfinish : ∀ j, (s.nodes j).pc ≠ .finishing := by
    intro j hj
    cases h.eq_of_critical hcritical (by rw [hj]; rfl)
    rw [hi] at hj
    cases hj
  have huntaken : ¬ s.Taken round round := by
    intro hcases
    rcases hcases with hlt | ⟨-, hincr' | ⟨j, hj⟩⟩
    · exact lt_irrefl round hlt
    · exact hincr hincr'
    · exact hfinish j hj
  have hincr' : (s.setPc i .finishing).Incremented round ↔ s.Incremented round :=
    incremented_put (by simp [Node.increments, hi])
  constructor
  · exact h.nodes_put hnode.1
  · exact h.holder_put hcritical
  · obtain ⟨k, hk, hzero⟩ := h.version
    exact ⟨k, hk, hzero.trans (not_congr hincr'.symm)⟩
  · intro j version' hj hincr''
    exact h.accepting_put (by simp) j version' hj (hincr'.mp hincr'')
  · intro fire hfire
    rw [runsOf_append (s := s) rfl, hnode.1]
    by_cases hnow : fire = round
    · rw [hnow, if_pos rfl, h.untaken round huntaken]
    · rw [if_neg hnow]
      exact h.taken fire (.inl (hfire.resolve_right fun hf => hnow hf.1))
  · intro fire hfire
    have hnow : fire ≠ round := by
      intro hsame
      subst hsame
      exact hfire (.inr ⟨rfl, .inr ⟨i, congrArg Node.pc put_self⟩⟩)
    rw [runsOf_append (s := s) rfl, hnode.1, if_neg hnow]
    exact h.untaken fire fun hf => hfire (.inl (hf.resolve_right fun hf => hnow hf.1))

/-- The increment ends the comparison for all nodes still to lock. -/
theorem inRound_finish (h : s.InRound round read) (hi : (s.nodes i).pc = .finishing) :
    InRound { s.setPc i .incremented with version := increment s.version } round read := by
  have hnode := h.nodes i
  simp only [Node.InRound, hi] at hnode
  have hcritical : (s.nodes i).pc.critical = true := by rw [hi]; rfl
  have hincr : (s.setPc i .incremented).Incremented round := by
    refine ⟨i, ?_⟩
    rw [setPc, put_self]
    simp [Node.increments, hnode]
  constructor
  · exact h.nodes_put (.inl hnode)
  · exact h.holder_put hcritical
  · obtain ⟨k, hk, -⟩ := h.version
    refine ⟨k + 1, ?_, iff_of_false (Nat.succ_ne_zero k) (not_not.mpr hincr)⟩
    rw [Function.iterate_succ_apply', ← hk]
  · intro j version hj
    have hpc : ((s.put i ⟨(s.nodes i).fire, .incremented⟩).nodes j).pc = .accepting version := hj
    have hlock := h.holder_put hcritical j (by rw [hpc]; rfl)
    cases Option.some.inj ((h.holder i hcritical).symm.trans hlock)
    rw [put_self] at hpc
    cases hpc
  · intro fire hfire
    apply h.taken fire
    exact hfire.imp_right fun hnow => ⟨hnow.1, .inr ⟨i, hi⟩⟩
  · intro fire hfire
    apply h.untaken fire
    intro hbefore
    exact hfire (hbefore.imp_right fun hnow => ⟨hnow.1, .inl hincr⟩)

/-- When all nodes are done with a round the next one can begin. -/
theorem InRound.restart (h : s.InRound round read) (i : Fin n) (hfire : fire = round ∨ fire = round + 1)
    (hstep : ∀ j, (s.nodes j).increments = fire) : s.InRound fire s.version := by
  have hnot : ¬ s.Incremented fire := by
    intro hexists
    obtain ⟨j, hj⟩ := hexists
    rw [hstep j] at hj
    exact lt_irrefl fire hj
  have hread : fire = round → s.version = read := by
    intro hsame
    subst hsame
    exact h.version_eq_iff.mpr hnot
  have hfinishing : ∀ j, (s.nodes j).pc = .finishing → fire = round := by
    intro j hj
    have hnode := h.nodes j
    have hj' := hstep j
    simp only [Node.InRound, hj] at hnode
    simp only [Node.increments, hj] at hj'
    exact hj'.symm.trans hnode
  constructor
  · intro j
    have hnode := h.nodes j
    have hj := hstep j
    cases hpc : (s.nodes j).pc <;>
      simp only [Node.InRound, Node.increments, hpc, reduceCtorEq, if_true, if_false,
        Nat.add_zero] at hnode hj ⊢
    case idle => exact .inl hj
    case versionRead | locked | accepting =>
      exact ⟨hj, hnode.2.trans (hread (hj.symm.trans hnode.1)).symm⟩
    case finishing => exact hj
    case incremented => exact .inr hj
  · exact h.holder
  · exact ⟨0, rfl, iff_of_true rfl hnot⟩
  · intro _ _ _
    exact hnot
  · intro f hf
    apply h.taken f
    rcases hf with hlt | ⟨rfl, hincr | ⟨j, hj⟩⟩
    · rcases Nat.lt_or_ge f round with hlt' | hge
      · exact .inl hlt'
      · refine .inr ⟨by omega, .inl ⟨i, ?_⟩⟩
        rw [hstep i]
        omega
    · exact (hnot hincr).elim
    · exact .inr ⟨hfinishing j hj, .inr ⟨j, hj⟩⟩
  · intro f hf
    apply h.untaken f
    intro hcases
    rcases hcases with hlt | ⟨rfl, hincr | ⟨j, hj⟩⟩
    · exact hf (.inl (by omega))
    · rcases hfire with rfl | rfl
      · exact hnot hincr
      · exact hf (.inl (Nat.lt_succ_self f))
    · exact hf (.inr ⟨(hfinishing j hj).symm, .inr ⟨j, hj⟩⟩)

theorem inRound_read (h : s.InRound round read) (hi : (s.nodes i).pc = .idle)
    (hstep : ∀ j, (s.nodes j).increments = (s.nodes i).fire) :
    (s.setPc i (.versionRead s.version)).InRound (s.nodes i).fire s.version := by
  have hnode := h.nodes i
  simp only [Node.InRound, hi] at hnode
  have hrestart := h.restart i hnode hstep
  apply hrestart.quiet
  · simp [Node.increments, hi]
  · simp [hi]
  · exact ⟨rfl, rfl⟩
  · intro j hj
    by_cases hji : j = i
    · rw [hji, put_self] at hj
      cases hj
    · rw [put_of_ne hji] at hj
      exact h.holder j hj
  · simp

theorem inRound_step (h : s.InRound round read) (hstep : s.ReadsInStep i) :
    ∃ round read, (s.step i).InRound round read := by
  unfold step
  split
  · rename_i hpc
    exact ⟨_, _, inRound_read h hpc (hstep hpc)⟩
  · rename_i version hpc
    split
    · rename_i hlock
      exact ⟨round, read, inRound_lock h hpc hlock⟩
    · exact ⟨round, read, h⟩
  · rename_i version hpc
    dsimp only
    split
    · rename_i hchanged
      exact ⟨round, read, inRound_return h hpc hchanged⟩
    · rename_i hsame
      exact ⟨round, read, inRound_accept h hpc (not_not.mp hsame)⟩
  · rename_i version hpc
    exact ⟨round, read, inRound_consume h hpc⟩
  · rename_i hpc
    exact ⟨round, read, inRound_finish h hpc⟩
  · rename_i hpc
    exact ⟨round, read, inRound_unlock h hpc⟩

theorem throughout_inRound {version : Option Int} {schedule : List (Fin n)}
    (h : Along step ReadsInStep (start version) schedule) :
    Throughout step (fun s : Cluster n => ∃ round read, s.InRound round read)
      (start version) schedule := by
  refine throughout_of_along ?_ ⟨0, version, inRound_start version⟩ h
  rintro s i ⟨round, read, hs⟩ hstep
  exact inRound_step hs hstep

/-- In every run in which the nodes read in step, each fire is run exactly once. -/
theorem runs_once_of_readsInStep (hn : 0 < n) (version : Option Int) (schedule : List (Fin n))
    (h : Along step ReadsInStep (start version) schedule) :
    Throughout step RunsOnce (start version : Cluster n) schedule := by
  refine (throughout_inRound h).mono ?_
  rintro s ⟨round, read, hs⟩
  exact hs.runsOnce hn

/-- Two nodes read; one runs the job, and the other returns. -/
theorem runs_once_two :
    Throughout step RunsOnce (start (some 3) : Cluster 2) [0, 1, 0, 0, 0, 0, 0, 1, 1, 1, 1] :=
  runs_once_of_readsInStep (by decide) (some 3) [0, 1, 0, 0, 0, 0, 0, 1, 1, 1, 1] (by decide)

/-- The second node reads its version after the first has incremented it. -/
def lateRead : List (Fin 2) := [0, 0, 0, 0, 0, 0, 1, 1, 1, 1]

/-- The first node reads for its next fire before the second has incremented the version, and
both find a version other than the one they read. -/
def earlyRead : List (Fin 2) := [1, 0, 0, 0, 0, 0, 0, 0, 1, 1, 1, 1, 1, 0, 0, 0, 0, 1, 1, 1, 1]

/-- One fire is run twice, and another not at all. -/
theorem not_runs_once :
    (¬ Throughout step RunsOnce (start none : Cluster 2) lateRead ∧
      (run step (start none : Cluster 2) lateRead).runsOf 0 = 2) ∧
    (¬ Throughout step RunsOnce (start none : Cluster 2) earlyRead ∧
      (run step (start none : Cluster 2) earlyRead).runsOf 1 = 0) := by
  have htwice : (run step (start none : Cluster 2) lateRead).runsOf 0 = 2 := by decide
  have hlost : (run step (start none : Cluster 2) earlyRead).runsOf 1 = 0 := by decide
  have hdone : ∀ i, 1 < ((run step (start none : Cluster 2) earlyRead).nodes i).fire := by decide
  refine ⟨⟨fun h => ?_, htwice⟩, fun h => ?_, hlost⟩
  · have hle := (h.last 0).1
    omega
  · have honce := (h.last 1).2 hdone
    omega

/-- A single node reads in step. -/
theorem runs_once_single (version : Option Int) (schedule : List (Fin 1)) :
    Throughout step RunsOnce (start version) schedule := by
  have hstep : ∀ (s : Cluster 1) (i : Fin 1), s.ReadsInStep i := by
    intro s i hidle j
    rw [Subsingleton.elim j i, Node.increments, hidle]
    rfl
  refine (throughout_inRound (along_of_forall hstep _ _)).mono ?_
  rintro s ⟨round, read, hs⟩
  exact hs.runsOnce Nat.one_pos

end Cluster

end BigPlan.Job
