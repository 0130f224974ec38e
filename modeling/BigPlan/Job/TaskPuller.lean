import BigPlan.Job.TaskRetry
import BigPlan.Lib.Runs

/-!
# The queues of an executor

`ExecutorClientImpl.send` brings one task after the other to the queue of its name, in steps
between which the worker of that name may take from the queue. Beside the state stands what has
become of the tasks: in which order they started and ended, which ones were dropped on arrival
and which ones were cleared from the queue.
-/
namespace BigPlan.Job

open Lib.Java Lib.Runs

structure TaskInfo where
  name : String
  params : Option String
  blockingStrategy : BlockingStrategy
  deriving DecidableEq, Repr

/-- A task with the number of its arrival. -/
structure TaskExecutor where
  number : ℕ
  taskInfo : TaskInfo
  messageId : String
  deriving DecidableEq, Repr

abbrev TaskExecutor.name (task : TaskExecutor) : String := task.taskInfo.name

/-! ## A run of a task -/

/-- What the trigger of the job does, if there is one. -/
inductive Execution where
  | missing
  | returned (execute : Bool)
  | thrown (e : String)
  deriving DecidableEq, Repr

/-- The bean that is serialized into the data. -/
inductive ResultData where
  | taskInfo (taskInfo : TaskInfo)
  | taskResult (taskResult : TaskResult)
  deriving DecidableEq, Repr

structure ResultMessage where
  messageId : String
  code : JInt
  error : Option String
  data : ResultData
  type : JInt
  deriving DecidableEq, Repr

/-- Without a trigger the task is sent back, not the result. -/
def TaskExecutor.run (task : TaskExecutor) (executorTime : String) : Execution → ResultMessage
  | .missing =>
    ⟨task.messageId, 5000, some (task.name ++ "任务不存在"), .taskInfo task.taskInfo,
      ClientMessage.RESULT⟩
  | .returned true => message ⟨0, some "成功", some task.messageId, some executorTime⟩
  | .returned false => message ⟨5000, some "执行失败", some task.messageId, some executorTime⟩
  | .thrown e => message ⟨5000, some e, some task.messageId, some executorTime⟩
where
  message (taskResult : TaskResult) : ResultMessage :=
    ⟨task.messageId, 0, none, .taskResult taskResult, ClientMessage.RESULT⟩

/-! ## `TaskPuller` -/

namespace TaskPuller

abbrev QueueMap := String → Option (List TaskExecutor)

def push (name : String) (task : TaskExecutor) (queues : QueueMap) : QueueMap :=
  Function.update queues name (some ((queues name).getD [] ++ [task]))

def isEmpty (name : String) (queues : QueueMap) : Bool :=
  match queues name with
  | none => true
  | some queue => queue.isEmpty

/-- Without a queue it returns `null`; on an empty one it waits. -/
def take (name : String) (queues : QueueMap) : Option (TaskExecutor × QueueMap) :=
  match queues name with
  | some (task :: queue) => some (task, Function.update queues name (some queue))
  | _ => none

def clear (name : String) (queues : QueueMap) : QueueMap :=
  match queues name with
  | none => queues
  | some _ => Function.update queues name (some [])

def queue (queues : QueueMap) (name : String) : List TaskExecutor := (queues name).getD []

variable {queues : QueueMap} {name other : String} {task : TaskExecutor}

@[simp] theorem queue_push :
    queue (push name task queues) name = queue queues name ++ [task] := by
  simp [queue, push]

theorem queue_push_of_ne (h : other ≠ name) :
    queue (push name task queues) other = queue queues other := by
  simp [queue, push, h]

@[simp] theorem queue_clear : queue (clear name queues) name = [] := by
  unfold queue clear
  cases h : queues name with
  | none => simp [h]
  | some _ => simp

theorem queue_clear_of_ne (h : other ≠ name) :
    queue (clear name queues) other = queue queues other := by
  unfold queue clear
  cases queues name with
  | none => rfl
  | some _ => simp [h]

theorem isEmpty_iff : isEmpty name queues = true ↔ queue queues name = [] := by
  unfold isEmpty queue
  cases queues name with
  | none => simp
  | some queue => simp

theorem take_eq_some {queues' : QueueMap} (h : take name queues = some (task, queues')) :
    queue queues name = task :: queue queues' name ∧
      ∀ other, other ≠ name → queue queues' other = queue queues other := by
  unfold take at h
  split at h
  · rename_i task' rest hqueue
    obtain ⟨rfl, rfl⟩ := Prod.mk.inj (Option.some.inj h)
    refine ⟨by simp [queue, hqueue], fun other hne => ?_⟩
    simp [queue, hne]
  · cases h

end TaskPuller

/-! ## The executor -/

/-- Where `send` is with a task. -/
inductive Sender where
  | idle
  | check (task : TaskExecutor)
  | clear (task : TaskExecutor)
  | push (task : TaskExecutor)
  deriving DecidableEq, Repr

inductive Event where
  | started (task : TaskExecutor)
  | finished (task : TaskExecutor)
  deriving DecidableEq, Repr

/-- With the history beside it: a dropped task stands with the queue that it found, a cleared
one with the task that covers it. -/
structure Executor where
  queues : TaskPuller.QueueMap
  sender : Sender
  running : String → Option TaskExecutor
  sent : List ResultMessage
  arrived : List TaskExecutor
  log : String → List Event
  dropped : List (TaskExecutor × List TaskExecutor)
  covered : List (TaskExecutor × TaskExecutor)

inductive Label where
  | receive (taskInfo : TaskInfo) (messageId : String)
  | send
  | take (name : String)
  | finish (name : String) (execution : Execution) (executorTime : String)

namespace Executor

open TaskPuller

def start : Executor where
  queues := fun _ => none
  sender := .idle
  running := fun _ => none
  sent := []
  arrived := []
  log := fun _ => []
  dropped := []
  covered := []

/-- The first step of `send` by the strategy of the task. -/
def begin (task : TaskExecutor) : Sender :=
  match task.taskInfo.blockingStrategy with
  | .discard => .check task
  | .cover => .clear task
  | .standAloneSerial => .push task

def send (s : Executor) : Executor :=
  match s.sender with
  | .idle => s
  | .check task =>
    if isEmpty task.name s.queues then { s with sender := .push task }
    else { s with sender := .idle, dropped := s.dropped ++ [(task, queue s.queues task.name)] }
  | .clear task =>
    { s with
      queues := clear task.name s.queues
      sender := .push task
      covered := s.covered ++ (queue s.queues task.name).map fun cleared => (cleared, task) }
  | .push task => { s with queues := push task.name task s.queues, sender := .idle }

/-- A message waits for the one before it, and a worker takes when its task has ended. -/
def step (s : Executor) : Label → Executor
  | .receive taskInfo messageId =>
    match s.sender with
    | .idle =>
      let task : TaskExecutor := ⟨s.arrived.length, taskInfo, messageId⟩
      { s with sender := begin task, arrived := s.arrived ++ [task] }
    | _ => s
  | .send => s.send
  | .take name =>
    match s.running name with
    | some _ => s
    | none =>
      match take name s.queues with
      | none => s
      | some (task, queues) =>
        { s with
          queues
          running := Function.update s.running name (some task)
          log := Function.update s.log name (s.log name ++ [.started task]) }
  | .finish name execution executorTime =>
    match s.running name with
    | none => s
    | some task =>
      { s with
        running := Function.update s.running name none
        log := Function.update s.log name (s.log name ++ [.finished task])
        sent := s.sent ++ [task.run executorTime execution] }

/-! ## What a step does -/

/-- The task that `send` is with. -/
def hand (s : Executor) : List TaskExecutor :=
  match s.sender with
  | .idle => []
  | .check task | .clear task | .push task => [task]

/-- The name that a step is about. -/
def nameOf (s : Executor) : Label → Option String
  | .receive taskInfo _ => some taskInfo.name
  | .send => (hand s).head?.map TaskExecutor.name
  | .take name | .finish name _ _ => some name

/-- All that a step about a name can change. -/
inductive Transition (s : Executor) : Option String → Executor → Prop where
  | stay {name : Option String} : Transition s name s
  | receive (task : TaskExecutor) (hsender : s.sender = .idle)
      (hnumber : task.number = s.arrived.length) :
      Transition s task.name { s with sender := begin task, arrived := s.arrived ++ [task] }
  | pass (task : TaskExecutor) (hsender : s.sender = .check task)
      (hqueue : queue s.queues task.name = []) :
      Transition s task.name { s with sender := .push task }
  | drop (task : TaskExecutor) (hsender : s.sender = .check task)
      (hqueue : queue s.queues task.name ≠ []) :
      Transition s task.name
        { s with sender := .idle, dropped := s.dropped ++ [(task, queue s.queues task.name)] }
  | clear (task : TaskExecutor) (hsender : s.sender = .clear task) :
      Transition s task.name
        { s with
          queues := TaskPuller.clear task.name s.queues
          sender := .push task
          covered := s.covered ++ (queue s.queues task.name).map fun cleared => (cleared, task) }
  | push (task : TaskExecutor) (hsender : s.sender = .push task) :
      Transition s task.name
        { s with queues := TaskPuller.push task.name task s.queues, sender := .idle }
  | take (name : String) (task : TaskExecutor) (queues : QueueMap)
      (hrunning : s.running name = none)
      (hqueue : queue s.queues name = task :: queue queues name)
      (hother : ∀ other, other ≠ name → queue queues other = queue s.queues other) :
      Transition s name
        { s with
          queues
          running := Function.update s.running name (some task)
          log := Function.update s.log name (s.log name ++ [.started task]) }
  | finish (name : String) (task : TaskExecutor) (message : ResultMessage)
      (hrunning : s.running name = some task) :
      Transition s name
        { s with
          running := Function.update s.running name none
          log := Function.update s.log name (s.log name ++ [.finished task])
          sent := s.sent ++ [message] }

theorem transition_step (s : Executor) (label : Label) :
    Transition s (nameOf s label) (step s label) := by
  cases label with
  | receive taskInfo messageId =>
    simp only [step]
    split
    · exact .receive ⟨s.arrived.length, taskInfo, messageId⟩ ‹_› rfl
    · exact .stay
  | send =>
    simp only [step, send, nameOf, hand]
    cases hsender : s.sender with
    | idle => exact .stay
    | check task =>
      simp only
      split_ifs with hempty
      · exact .pass task hsender (isEmpty_iff.mp hempty)
      · exact .drop task hsender fun hqueue => hempty (isEmpty_iff.mpr hqueue)
    | clear task => exact .clear task hsender
    | push task => exact .push task hsender
  | take name =>
    simp only [step]
    split
    · exact .stay
    · split
      · exact .stay
      · obtain ⟨hqueue, hother⟩ := take_eq_some ‹_›
        exact .take name _ _ ‹_› hqueue hother
  | finish name execution executorTime =>
    simp only [step]
    split
    · exact .stay
    · exact .finish name _ _ ‹_›

section Invariants

variable {s s' : Executor} {about : Option String} {name : String} {task : TaskExecutor}

theorem hand_begin (s : Executor) (task : TaskExecutor) (arrived : List TaskExecutor) :
    hand { s with sender := begin task, arrived } = [task] := by
  unfold hand begin
  cases task.taskInfo.blockingStrategy <;> rfl

/-! ### One task at a time -/

def startedTasks (log : List Event) : List TaskExecutor :=
  log.filterMap fun event => match event with
    | .started task => some task
    | .finished _ => none

/-- The log is a row of whole runs, and at most the beginning of one more. -/
def Serial (log : List Event) (running : Option TaskExecutor) : Prop :=
  ∃ done : List TaskExecutor, log = (done.flatMap fun task => [.started task, .finished task]) ++
    running.toList.map .started

theorem serial_transition (h : Transition s about s')
    (hserial : ∀ name, Serial (s.log name) (s.running name)) :
    ∀ name, Serial (s'.log name) (s'.running name) := by
  cases h with
  | take name task queues hrunning hqueue hother =>
    intro other
    by_cases hother : other = name
    · subst hother
      obtain ⟨done, hlog⟩ := hserial other
      refine ⟨done, ?_⟩
      simp [hlog, hrunning]
    · simpa [hother] using hserial other
  | finish name task message hrunning =>
    intro other
    by_cases hother : other = name
    · subst hother
      obtain ⟨done, hlog⟩ := hserial other
      refine ⟨done ++ [task], ?_⟩
      simp [hlog, hrunning]
    · simpa [hother] using hserial other
  | stay | receive | pass | drop | clear | push => exact hserial

/-! ### The order of the tasks -/

/-- The tasks of a name that have started or wait. -/
def line (s : Executor) (name : String) : List TaskExecutor :=
  startedTasks (s.log name) ++ queue s.queues name

/-- Tasks stand in line in the order of their arrival, the one at hand behind all of them. -/
structure Ordered (s : Executor) : Prop where
  numbered : s.arrived.map TaskExecutor.number = List.range s.arrived.length
  arrived : ∀ name, ∀ task ∈ line s name ++ hand s, task ∈ s.arrived
  sorted : ∀ name, (line s name ++ hand s).Pairwise fun task other => task.number < other.number
  name_eq : ∀ name, ∀ task ∈ line s name, task.name = name

theorem Ordered.number_lt (h : Ordered s) (htask : task ∈ s.arrived) :
    task.number < s.arrived.length := by
  have hmem := List.mem_map_of_mem (f := TaskExecutor.number) htask
  rwa [h.numbered, List.mem_range] at hmem

theorem Ordered.nodup (h : Ordered s) : s.arrived.Nodup := by
  apply List.Nodup.of_map TaskExecutor.number
  rw [h.numbered]
  exact List.nodup_range

/-- Where the lines only lose tasks, and the one at hand does not change, the order stays. -/
theorem Ordered.thin (h : Ordered s) (harrived : s'.arrived = s.arrived)
    (hline : ∀ name, (line s' name ++ hand s').Sublist (line s name ++ hand s))
    (hname : ∀ name, ∀ task ∈ line s' name, task.name = name) : Ordered s' where
  numbered := by rw [harrived, h.numbered]
  arrived name task htask := by
    rw [harrived]
    exact h.arrived name task ((hline name).mem htask)
  sorted name := (h.sorted name).sublist (hline name)
  name_eq := hname

/-- Where lines and hand stay as they are, the order stays. -/
theorem Ordered.congr (h : Ordered s) (harrived : s'.arrived = s.arrived)
    (hhand : hand s' = hand s) (hline : ∀ name, line s' name = line s name) : Ordered s' := by
  refine h.thin harrived (fun name => ?_) fun name task htask => ?_
  · rw [hline, hhand]
  · rw [hline] at htask
    exact h.name_eq name task htask

theorem startedTasks_append (log log' : List Event) :
    startedTasks (log ++ log') = startedTasks log ++ startedTasks log' :=
  List.filterMap_append

/-- One event more in the log of a name. -/
theorem startedTasks_update (log : String → List Event) (name other : String) (e : Event) :
    startedTasks (Function.update log name (log name ++ [e]) other) =
      startedTasks (log other) ++ if other = name then startedTasks [e] else [] := by
  by_cases hname : other = name
  · rw [hname, Function.update_self, startedTasks_append, if_pos rfl]
  · rw [Function.update_of_ne hname, if_neg hname, List.append_nil]

theorem ordered_receive (h : Ordered s) (hhand : hand s = [])
    (hnumber : task.number = s.arrived.length) :
    Ordered { s with sender := begin task, arrived := s.arrived ++ [task] } where
  numbered := by
    rw [List.map_append, h.numbered, List.length_append]
    simp [List.range_succ, hnumber]
  arrived name other hother := by
    rw [hand_begin] at hother
    rcases List.mem_append.mp hother with hline | htask
    · exact List.mem_append_left _ (h.arrived name other (List.mem_append_left _ hline))
    · exact List.mem_append_right _ htask
  sorted name := by
    rw [hand_begin, List.pairwise_append]
    have hsorted := h.sorted name
    rw [hhand, List.append_nil] at hsorted
    refine ⟨hsorted, List.pairwise_singleton _ _, fun other hother last hlast => ?_⟩
    rw [List.mem_singleton.mp hlast, hnumber]
    exact h.number_lt (h.arrived name other (List.mem_append_left _ hother))
  name_eq := h.name_eq

theorem ordered_transition (h : Transition s about s') (hordered : Ordered s) : Ordered s' := by
  cases h with
  | stay => exact hordered
  | receive task hsender hnumber =>
    have hhand : hand s = [] := by simp [hand, hsender]
    exact ordered_receive hordered hhand hnumber
  | pass task hsender hqueue =>
    refine hordered.thin rfl (fun name => ?_) hordered.name_eq
    simp only [hand, hsender]
    exact List.Sublist.refl _
  | drop task hsender hqueue =>
    refine hordered.thin rfl (fun name => ?_) hordered.name_eq
    simp only [hand, hsender]
    exact (List.Sublist.refl _).append (List.nil_sublist _)
  | clear task hsender =>
    have hline (name : String) :
        (startedTasks (s.log name) ++ queue (TaskPuller.clear task.name s.queues) name).Sublist
          (line s name) := by
      refine (List.Sublist.refl _).append ?_
      by_cases hname : name = task.name
      · rw [hname, queue_clear]
        exact List.nil_sublist _
      · rw [queue_clear_of_ne hname]
    refine hordered.thin rfl (fun name => ?_) fun name other hother => ?_
    · simp only [hand, hsender]
      exact (hline name).append (List.Sublist.refl _)
    · exact hordered.name_eq name other ((hline name).mem hother)
  | push task hsender =>
    have hhand : hand s = [task] := by simp [hand, hsender]
    -- the task moves from the hand to the end of its line
    have hline (name : String) : startedTasks (s.log name) ++
        queue (TaskPuller.push task.name task s.queues) name =
          line s name ++ if name = task.name then [task] else [] := by
      by_cases hname : name = task.name
      · rw [hname, queue_push, if_pos rfl, line, List.append_assoc]
      · rw [queue_push_of_ne hname, if_neg hname, List.append_nil, line]
    refine hordered.thin rfl (fun name => ?_) fun name other hother => ?_
    · simp only [hand, line, List.append_nil] at hhand ⊢
      rw [hline, hhand]
      split_ifs
      · exact List.Sublist.refl _
      · exact (List.Sublist.refl _).append (List.nil_sublist _)
    · simp only [line] at hother
      rw [hline] at hother
      rcases List.mem_append.mp hother with hline | htask
      · exact hordered.name_eq name other hline
      · split_ifs at htask with hname
        · rw [List.mem_singleton.mp htask, hname]
        · cases htask
  | take name task queues hrunning hqueue hother =>
    -- the first task of the queue becomes the last one that has started
    refine hordered.congr rfl rfl fun other => ?_
    simp only [line, startedTasks_update]
    by_cases hname : other = name
    · rw [if_pos hname, hname, hqueue, List.append_assoc]
      rfl
    · rw [if_neg hname, hother other hname, List.append_nil]
  | finish name task message hrunning =>
    refine hordered.congr rfl rfl fun other => ?_
    simp only [line, startedTasks_update]
    split_ifs <;> simp [startedTasks]

/-! ### What has become of the tasks -/

/-- Every arrived task is counted in one place. -/
def Tallied (s : Executor) : Prop :=
  ∀ task, s.arrived.count task = (hand s).count task + (startedTasks (s.log task.name)).count task +
    (queue s.queues task.name).count task + (s.dropped.map Prod.fst).count task +
    (s.covered.map Prod.fst).count task

theorem tallied_transition (h : Transition s about s') (hordered : Ordered s) (htallied : Tallied s) :
    Tallied s' := by
  intro other
  have hcount := htallied other
  cases h with
  | stay => exact hcount
  | receive task hsender hnumber =>
    have hhand : hand s = [] := by simp [hand, hsender]
    rw [hhand] at hcount
    rw [hand_begin, List.count_append, hcount]
    simp only [List.count_nil]
    omega
  | pass task hsender hqueue =>
    simp only [hand, hsender] at hcount ⊢
    exact hcount
  | drop task hsender hqueue =>
    simp only [hand, hsender, List.map_append, List.map_cons, List.map_nil, List.count_append,
      List.count_nil] at hcount ⊢
    omega
  | clear task hsender =>
    have hcleared : (((queue s.queues task.name).map fun cleared => (cleared, task)).map
        Prod.fst) = queue s.queues task.name := by
      rw [List.map_map]
      exact List.map_id _
    simp only [hand, hsender, List.map_append, List.count_append, hcleared] at hcount ⊢
    by_cases hname : other.name = task.name
    · rw [hname] at hcount ⊢
      rw [queue_clear, List.count_nil]
      omega
    · -- the cleared queue has no task of another name
      have hzero : (queue s.queues task.name).count other = 0 := by
        rw [List.count_eq_zero]
        intro hmem
        exact hname (hordered.name_eq task.name other (List.mem_append_right _ hmem))
      rw [queue_clear_of_ne hname, hzero]
      exact hcount
  | push task hsender =>
    simp only [hand, hsender, List.count_nil] at hcount ⊢
    by_cases hname : other.name = task.name
    · rw [hname] at hcount ⊢
      rw [queue_push, List.count_append]
      omega
    · have hzero : [task].count other = 0 := by
        rw [List.count_eq_zero]
        intro hmem
        exact hname (congrArg TaskExecutor.name (List.mem_singleton.mp hmem))
      rw [hzero] at hcount
      rw [queue_push_of_ne hname]
      exact hcount
  | take name task queues hrunning hqueue hother =>
    simp only [hand] at hcount ⊢
    by_cases hname : other.name = name
    · subst hname
      rw [hqueue, List.count_cons] at hcount
      rw [Function.update_self, startedTasks_append, List.count_append]
      simp only [startedTasks, List.filterMap_cons, List.filterMap_nil, List.count_cons,
        List.count_nil] at hcount ⊢
      omega
    · rw [Function.update_of_ne hname, hother _ hname]
      exact hcount
  | finish name task message hrunning =>
    simp only [hand] at hcount ⊢
    by_cases hname : other.name = name
    · subst hname
      rw [Function.update_self, startedTasks_append]
      simpa [startedTasks] using hcount
    · rw [Function.update_of_ne hname]
      exact hcount

/-- `send` was refused by a queue that held another task of the name. -/
structure IsDropped (task : TaskExecutor) (waiting : List TaskExecutor) : Prop where
  strategy : task.taskInfo.blockingStrategy = .discard
  waiting_ne : waiting ≠ []
  others : ∀ other ∈ waiting, other.name = task.name ∧ other.number < task.number

/-- A later task of the name covers the task. -/
structure IsCovered (task cover : TaskExecutor) : Prop where
  strategy : cover.taskInfo.blockingStrategy = .cover
  name : cover.name = task.name
  later : task.number < cover.number

/-- The history says why a task did not start. -/
structure Marked (s : Executor) : Prop where
  check : ∀ task, s.sender = .check task → task.taskInfo.blockingStrategy = .discard
  clear : ∀ task, s.sender = .clear task → task.taskInfo.blockingStrategy = .cover
  dropped : ∀ p ∈ s.dropped, IsDropped p.1 p.2
  covered : ∀ p ∈ s.covered, IsCovered p.1 p.2

theorem Ordered.waits (h : Ordered s) (hhand : hand s = [task]) {other : TaskExecutor}
    (hother : other ∈ queue s.queues task.name) :
    other.name = task.name ∧ other.number < task.number := by
  have hline : other ∈ line s task.name := List.mem_append_right _ hother
  refine ⟨h.name_eq _ other hline, ?_⟩
  have hsorted := h.sorted task.name
  rw [hhand, List.pairwise_append] at hsorted
  exact hsorted.2.2 other hline task (List.mem_singleton.mpr rfl)

theorem begin_eq_check {other : TaskExecutor} (h : begin task = .check other) :
    other.taskInfo.blockingStrategy = .discard := by
  unfold begin at h
  split at h <;> cases h
  assumption

theorem begin_eq_clear {other : TaskExecutor} (h : begin task = .clear other) :
    other.taskInfo.blockingStrategy = .cover := by
  unfold begin at h
  split at h <;> cases h
  assumption

theorem marked_transition (h : Transition s about s') (hordered : Ordered s) (hmarked : Marked s) :
    Marked s' := by
  cases h with
  | stay | take | finish => exact ⟨hmarked.check, hmarked.clear, hmarked.dropped, hmarked.covered⟩
  | receive task hsender hnumber =>
    exact ⟨fun _ => begin_eq_check, fun _ => begin_eq_clear, hmarked.dropped, hmarked.covered⟩
  | pass task hsender hqueue =>
    exact ⟨fun _ h => (by cases h), fun _ h => (by cases h), hmarked.dropped, hmarked.covered⟩
  | push task hsender =>
    exact ⟨fun _ h => (by cases h), fun _ h => (by cases h), hmarked.dropped, hmarked.covered⟩
  | drop task hsender hqueue =>
    refine ⟨fun _ h => (by cases h), fun _ h => (by cases h), fun p hp => ?_, hmarked.covered⟩
    rcases List.mem_append.mp hp with hp | hp
    · exact hmarked.dropped p hp
    · rw [List.mem_singleton.mp hp]
      have hhand : hand s = [task] := by simp [hand, hsender]
      exact ⟨hmarked.check task hsender, hqueue, fun other hother => hordered.waits hhand hother⟩
  | clear task hsender =>
    refine ⟨fun _ h => (by cases h), fun _ h => (by cases h), hmarked.dropped, fun p hp => ?_⟩
    rcases List.mem_append.mp hp with hp | hp
    · exact hmarked.covered p hp
    · obtain ⟨cleared, hcleared, rfl⟩ := List.mem_map.mp hp
      have hhand : hand s = [task] := by simp [hand, hsender]
      obtain ⟨hname, hnumber⟩ := hordered.waits hhand hcleared
      exact ⟨hmarked.clear task hsender, hname.symm, hnumber⟩

/-! ### All invariants -/

structure Invariant (s : Executor) : Prop where
  serial : ∀ name, Serial (s.log name) (s.running name)
  ordered : Ordered s
  tallied : Tallied s
  marked : Marked s

theorem invariant_start : Invariant start where
  serial := fun _ => ⟨[], rfl⟩
  ordered := ⟨rfl, fun _ _ h => (by cases h), fun _ => .nil, fun _ _ h => (by cases h)⟩
  tallied := fun _ => rfl
  marked := ⟨fun _ h => (by cases h), fun _ h => (by cases h), fun _ h => (by cases h),
    fun _ h => (by cases h)⟩

theorem invariant_step (s : Executor) (label : Label) (h : Invariant s) :
    Invariant (step s label) :=
  have htransition := transition_step s label
  { serial := serial_transition htransition h.serial
    ordered := ordered_transition htransition h.ordered
    tallied := tallied_transition htransition h.ordered h.tallied
    marked := marked_transition htransition h.ordered h.marked }

/-! ### Where a task is -/

inductive Situation where
  | started
  | queued
  | dropped
  | covered
  deriving DecidableEq, Repr

def In (s : Executor) (task : TaskExecutor) : Situation → Prop
  | .started => .started task ∈ s.log task.name
  | .queued => task ∈ queue s.queues task.name
  | .dropped => ∃ waiting, (task, waiting) ∈ s.dropped ∧ IsDropped task waiting
  | .covered => ∃ cover, (task, cover) ∈ s.covered ∧ IsCovered task cover

/-- How often a task is counted in a situation. -/
def times (s : Executor) (task : TaskExecutor) : Situation → ℕ
  | .started => (startedTasks (s.log task.name)).count task
  | .queued => (queue s.queues task.name).count task
  | .dropped => (s.dropped.map Prod.fst).count task
  | .covered => (s.covered.map Prod.fst).count task

theorem mem_startedTasks {log : List Event} :
    task ∈ startedTasks log ↔ .started task ∈ log := by
  unfold startedTasks
  rw [List.mem_filterMap]
  constructor
  · intro h
    obtain ⟨event, hevent, heq⟩ := h
    cases event with
    | started _ =>
      cases heq
      exact hevent
    | finished _ => cases heq
  · intro h
    exact ⟨_, h, rfl⟩

theorem in_iff_times (h : Marked s) (situation : Situation) :
    In s task situation ↔ 0 < times s task situation := by
  cases situation with
  | started => rw [In, times, List.count_pos_iff, mem_startedTasks]
  | queued => rw [In, times, List.count_pos_iff]
  | dropped =>
    rw [In, times, List.count_pos_iff, List.mem_map]
    constructor
    · intro hin
      obtain ⟨waiting, hmem, -⟩ := hin
      exact ⟨_, hmem, rfl⟩
    · intro hmem
      obtain ⟨p, hp, rfl⟩ := hmem
      exact ⟨p.2, hp, h.dropped p hp⟩
  | covered =>
    rw [In, times, List.count_pos_iff, List.mem_map]
    constructor
    · intro hin
      obtain ⟨cover, hmem, -⟩ := hin
      exact ⟨_, hmem, rfl⟩
    · intro hmem
      obtain ⟨p, hp, rfl⟩ := hmem
      exact ⟨p.2, hp, h.covered p hp⟩

/-- An arrived task that is not at hand is in exactly one situation. -/
theorem existsUnique_in (h : Invariant s) (htask : task ∈ s.arrived) (hhand : task ∉ hand s) :
    ∃! situation, In s task situation := by
  have hcount := h.tallied task
  rw [List.count_eq_one_of_mem h.ordered.nodup htask, List.count_eq_zero_of_not_mem hhand] at hcount
  have hsum : times s task .started + times s task .queued + times s task .dropped +
      times s task .covered = 1 := by
    simp only [times]
    omega
  have hone : ∃ situation, 0 < times s task situation := by
    by_contra hnone
    push Not at hnone
    have hstarted := hnone .started
    have hqueued := hnone .queued
    have hdropped := hnone .dropped
    have hcovered := hnone .covered
    omega
  obtain ⟨situation, hpos⟩ := hone
  refine ⟨situation, (in_iff_times h.marked situation).mpr hpos, fun other hother => ?_⟩
  have hotherPos := (in_iff_times h.marked other).mp hother
  cases situation <;> cases other <;> first | rfl | omega

/-! ### The end of `send` -/

def rank : Sender → ℕ
  | .idle => 0
  | .push _ => 1
  | .check _ | .clear _ => 2

/-- The steps that `send` is still to take with the task. -/
def rest (s : Executor) (task : TaskExecutor) : ℕ :=
  if task ∈ hand s then rank s.sender else 0

def isSend : Label → Bool
  | .send => true
  | _ => false

theorem rank_send (s : Executor) : rank (send s).sender ≤ rank s.sender - 1 := by
  unfold send
  cases hsender : s.sender with
  | idle => simp [rank, hsender]
  | check task =>
    simp only
    split_ifs
    · exact Nat.le_refl _
    · exact Nat.zero_le _
  | clear task => exact Nat.le_refl _
  | push task => exact Nat.le_refl _

theorem hand_send {s : Executor} {task : TaskExecutor} (h : task ∈ hand (send s)) :
    task ∈ hand s := by
  unfold send hand at *
  cases hsender : s.sender with
  | idle => simp [hsender] at h
  | check other =>
    simp only [hsender] at h ⊢
    split_ifs at h
    · exact h
    · cases h
  | clear other =>
    simp only [hsender] at h ⊢
    exact h
  | push other => simp [hsender] at h

theorem rest_step (h : Invariant s) (htask : task ∈ s.arrived) (label : Label) :
    rest (step s label) task ≤ rest s task - [label].countP isSend := by
  cases label with
  | send =>
    change rest (send s) task ≤ rest s task - 1
    unfold rest
    split_ifs with hafter hbefore
    · exact rank_send s
    · exact absurd (hand_send hafter) hbefore
    · exact Nat.zero_le _
    · exact Nat.le_refl _
  | receive taskInfo messageId =>
    change rest (step s (.receive taskInfo messageId)) task ≤ rest s task
    unfold step
    cases hsender : s.sender with
    | idle =>
      -- the task that is new has a number that no arrived task has
      have hnew : task ∉ hand { s with
          sender := begin ⟨s.arrived.length, taskInfo, messageId⟩
          arrived := s.arrived ++ [⟨s.arrived.length, taskInfo, messageId⟩] } := by
        rw [hand_begin, List.mem_singleton]
        intro heq
        have hlt := h.ordered.number_lt htask
        rw [heq] at hlt
        exact absurd hlt (Nat.lt_irrefl _)
      simp only [rest, if_neg hnew]
      exact Nat.zero_le _
    | check _ | clear _ | push _ => exact Nat.le_refl _
  | take name =>
    change rest (step s (.take name)) task ≤ rest s task
    simp only [step]
    split
    · exact Nat.le_refl _
    · split <;> exact Nat.le_refl _
  | finish name execution executorTime =>
    change rest (step s (.finish name execution executorTime)) task ≤ rest s task
    simp only [step]
    split <;> exact Nat.le_refl _

theorem arrived_step (htask : task ∈ s.arrived) (label : Label) :
    task ∈ (step s label).arrived := by
  have htransition := transition_step s label
  generalize step s label = s', nameOf s label = about at htransition ⊢
  cases htransition with
  | receive => exact List.mem_append_left _ htask
  | stay | pass | drop | clear | push | take | finish => exact htask

theorem rest_run (h : Invariant s) (htask : task ∈ s.arrived) (more : List Label) :
    task ∈ (run step s more).arrived ∧
      rest (run step s more) task ≤ rest s task - more.countP isSend := by
  induction more generalizing s with
  | nil => exact ⟨htask, Nat.le_refl _⟩
  | cons label more ih =>
    obtain ⟨harrived, hrest⟩ := ih (invariant_step s label h) (arrived_step htask label)
    have hstep := rest_step h htask label
    refine ⟨harrived, ?_⟩
    have hcount : (label :: more).countP isSend = [label].countP isSend + more.countP isSend := by
      rw [← List.countP_append, List.singleton_append]
    rw [run_cons, hcount]
    omega

/-- After two more steps of `send` a task has left its hand. -/
theorem not_mem_hand_run (h : Invariant s) (htask : task ∈ s.arrived) {more : List Label}
    (hmore : 2 ≤ more.countP isSend) : task ∉ hand (run step s more) := by
  intro hhand
  obtain ⟨-, hrest⟩ := rest_run h htask more
  have hle : rest s task ≤ 2 := by
    unfold rest rank
    split_ifs
    · cases s.sender <;> simp
    · exact Nat.zero_le _
  have hpos : 0 < rest (run step s more) task := by
    rw [rest, if_pos hhand]
    cases hsender : (run step s more).sender with
    | idle => simp [hand, hsender] at hhand
    | check _ | clear _ | push _ => simp [rank]
  omega

/-! ### Other names -/

/-- All of an executor that is about one name. -/
structure Lane where
  hand : List TaskExecutor
  arrived : List TaskExecutor
  queue : List TaskExecutor
  running : Option TaskExecutor
  log : List Event
  dropped : List (TaskExecutor × List TaskExecutor)
  covered : List (TaskExecutor × TaskExecutor)

def lane (s : Executor) (name : String) : Lane where
  hand := (hand s).filter fun task => task.name = name
  arrived := s.arrived.filter fun task => task.name = name
  queue := queue s.queues name
  running := s.running name
  log := s.log name
  dropped := s.dropped.filter fun p => p.1.name = name
  covered := s.covered.filter fun p => p.1.name = name

theorem lane_transition (h : Transition s about s') (hordered : Ordered s)
    (hname : about ≠ some name) : lane s' name = lane s name := by
  have hfilter {task : TaskExecutor} (hne : task.name ≠ name) :
      [task].filter (fun task => task.name = name) = [] := by simp [hne]
  cases h with
  | stay => rfl
  | receive task hsender hnumber =>
    have hne : task.name ≠ name := fun heq => hname (congrArg some heq)
    have hhand : hand s = [] := by simp [hand, hsender]
    simp only [lane, hand_begin, List.filter_append, hfilter hne, hhand, List.append_nil,
      List.filter_nil]
  | pass task hsender hqueue => simp only [lane, hand, hsender]
  | drop task hsender hqueue =>
    have hne : task.name ≠ name := fun heq => hname (congrArg some heq)
    simp only [lane, hand, hsender, hfilter hne, List.filter_append, List.filter_nil]
    simp [hne]
  | clear task hsender =>
    have hne : task.name ≠ name := fun heq => hname (congrArg some heq)
    have hcovered : ((queue s.queues task.name).map fun cleared => (cleared, task)).filter
        (fun p => p.1.name = name) = [] := by
      rw [List.filter_eq_nil_iff]
      intro p hp
      obtain ⟨cleared, hcleared, rfl⟩ := List.mem_map.mp hp
      have heq := hordered.name_eq task.name cleared (List.mem_append_right _ hcleared)
      simp [heq, hne]
    simp only [lane, hand, hsender, List.filter_append, hcovered, List.append_nil,
      queue_clear_of_ne hne.symm]
  | push task hsender =>
    have hne : task.name ≠ name := fun heq => hname (congrArg some heq)
    simp only [lane, hand, hsender, hfilter hne, List.filter_nil, queue_push_of_ne hne.symm]
  | take other task queues hrunning hqueue hother =>
    have hne : name ≠ other := fun heq => hname (congrArg some heq.symm)
    simp only [lane, hand, hother name hne, Function.update_of_ne hne]
  | finish other task message hrunning =>
    have hne : name ≠ other := fun heq => hname (congrArg some heq.symm)
    simp only [lane, hand, Function.update_of_ne hne]

end Invariants

/-! ## The strategies -/

theorem invariant_run_start (labels : List Label) : Invariant (run step start labels) :=
  invariant_run invariant_step invariant_start labels

/-- After any run, the tasks of one name run one after the other in the order of their arrival;
a task that is not at hand, as none is after two more steps of `send`, is in one situation; and
a step about one name changes nothing for another. -/
theorem tasks_accounted (labels more : List Label) (hmore : 2 ≤ more.countP isSend) :
    (∀ name,
      Serial ((run step start labels).log name) ((run step start labels).running name) ∧
      (startedTasks ((run step start labels).log name)).Pairwise
        (fun task later => task.number < later.number) ∧
      ∀ task ∈ startedTasks ((run step start labels).log name), task.name = name) ∧
    (∀ task ∈ (run step start labels).arrived,
      (task ∉ hand (run step start labels) → ∃! situation, In (run step start labels) task situation) ∧
      ∃! situation, In (run step (run step start labels) more) task situation) ∧
    ∀ label name, nameOf (run step start labels) label ≠ some name →
      lane (step (run step start labels) label) name = lane (run step start labels) name := by
  have hinvariant := invariant_run_start labels
  generalize run step start labels = s at hinvariant
  refine ⟨fun name => ⟨hinvariant.serial name, ?_, ?_⟩, fun task htask => ⟨?_, ?_⟩, ?_⟩
  · have hsorted := hinvariant.ordered.sorted name
    rw [line, List.append_assoc, List.pairwise_append] at hsorted
    exact hsorted.1
  · intro task htask
    exact hinvariant.ordered.name_eq name task (List.mem_append_left _ htask)
  · exact existsUnique_in hinvariant htask
  · exact existsUnique_in (invariant_run invariant_step hinvariant more)
      (rest_run hinvariant htask more).1 (not_mem_hand_run hinvariant htask hmore)
  · intro label name hname
    exact lane_transition (transition_step s label) hinvariant.ordered hname

/-- A task with strategy `DISCARD` comes behind one that waits. -/
def discardLabels : List Label :=
  [.receive ⟨"sync", none, .standAloneSerial⟩ "a", .send, .receive ⟨"sync", none, .discard⟩ "b"]

theorem tasks_accounted_discard :
    ∃! situation, In (run step (run step start discardLabels) [.send, .send])
      ⟨1, ⟨"sync", none, .discard⟩, "b"⟩ situation :=
  ((tasks_accounted discardLabels [.send, .send] (by decide)).2.1 _ (by decide +kernel)).2

end Executor

end BigPlan.Job
