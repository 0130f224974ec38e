import BigPlan.Job.MessageCodec
import BigPlan.Job.TaskPuller

/-!
# The result of a task

`TaskExecutor.run` serializes the result of a task into the message that it hands to the
consumer, and `TaskResultCallback` takes the data for a serialized `TaskResult`. Sender and
receiver share only the class.
-/
namespace BigPlan.Job.Wire

open Lib.Java

structure TaskInfo where
  name : Option String
  params : Option String
  blockingStrategy : Option BlockingStrategy
  deriving DecidableEq, Repr

/-- Decoding as a class undoes encoding as that class. -/
structure Protostuff (Bean : Type) where
  bean2Byte : Bean → Option (List UInt8)
  byte2Bean : List UInt8 → Option Bean
  undoes : Undoes bean2Byte byte2Bean

/-- What a trigger returns, or the text of the exception that it throws. -/
abbrev JobTrigger := TaskInfo → Except (Option String) Bool

structure ZzhJobRepository where
  CACHE : Option String → Option JobTrigger

namespace TaskExecutor

section Run

variable (results : Protostuff TaskResult) (infos : Protostuff TaskInfo)
  (repository : ZzhJobRepository) (taskInfo : TaskInfo) (messageId : Option String)
  (executorTime : String)

def missing : ClientMessage :=
  let error := stringOf taskInfo.name ++ "任务不存在"
  { messageId, code := 5000, error := some error, data := infos.bean2Byte taskInfo
    type := ClientMessage.RESULT }

def taskResult : Except (Option String) Bool → TaskResult
  | .ok true => ⟨0, some "成功", messageId, some executorTime⟩
  | .ok false => ⟨5000, some "执行失败", messageId, some executorTime⟩
  | .error e => ⟨5000, e, messageId, some executorTime⟩

def finished (execute : Except (Option String) Bool) : ClientMessage :=
  { messageId, code := 0, error := none
    data := results.bean2Byte (taskResult messageId executorTime execute)
    type := ClientMessage.RESULT }

/-- The messages that the consumer accepts. -/
def run : List ClientMessage :=
  match repository.CACHE taskInfo.name with
  | none => [missing infos taskInfo messageId]
  | some jobTrigger => [finished results messageId executorTime (jobTrigger taskInfo)]

end Run

end TaskExecutor

/-- `TaskResultCallback` on the data; without any data the bean is new. -/
def readResult (results : Protostuff TaskResult) : Option (List UInt8) → Option TaskResult
  | none => some ⟨0, none, none, none⟩
  | some data => results.byte2Bean data

namespace TaskExecutor

/-! ## The runs of the executor's queues -/

section Queues

/-- A task in a queue. -/
def ofTask (taskInfo : Job.TaskInfo) : TaskInfo :=
  ⟨some taskInfo.name, taskInfo.params, some taskInfo.blockingStrategy⟩

def execution (jobTrigger : Option JobTrigger) (taskInfo : TaskInfo) : Execution :=
  match jobTrigger with
  | none => .missing
  | some jobTrigger =>
    match jobTrigger taskInfo with
    | .ok execute => .returned execute
    | .error e => .thrown (stringOf e)

def serialize (results : Protostuff TaskResult) (infos : Protostuff TaskInfo)
    (message : ResultMessage) : ClientMessage :=
  { messageId := some message.messageId, code := message.code, error := message.error
    data := match message.data with
      | .taskInfo taskInfo => infos.bean2Byte (ofTask taskInfo)
      | .taskResult taskResult => results.bean2Byte taskResult
    type := message.type }

/-- The run of a task in a queue, up to the text of an exception that has none. -/
theorem run_ofTask (results : Protostuff TaskResult) (infos : Protostuff TaskInfo)
    (repository : ZzhJobRepository) (task : Job.TaskExecutor) (executorTime : String)
    (htext : ∀ jobTrigger, repository.CACHE (some task.name) = some jobTrigger →
      jobTrigger (ofTask task.taskInfo) ≠ .error none) :
    run results infos repository (ofTask task.taskInfo) (some task.messageId) executorTime =
      [serialize results infos (task.run executorTime
        (execution (repository.CACHE (some task.name)) (ofTask task.taskInfo)))] := by
  simp only [run, ofTask] at htext ⊢
  cases hcache : repository.CACHE (some task.taskInfo.name) with
  | none => rfl
  | some jobTrigger =>
    have htext := htext jobTrigger hcache
    simp only [execution, finished]
    cases htrigger : jobTrigger _ with
    | ok execute => cases execute <;> rfl
    | error e =>
      cases e with
      | none => exact absurd htrigger htext
      | some e => rfl

end Queues

end TaskExecutor

/-! ## Serialized forms -/

section Forms

variable {tag : UInt8} {r : List UInt8}

theorem head_writeByteArray (bytes : Option (List UInt8)) :
    (writeByteArray tag bytes ++ r).head? = if bytes.isSome then some tag else r.head? := by
  cases bytes <;> rfl

/-- The ordinal of a constant. -/
def writeEnum (tag : UInt8) : Option BlockingStrategy → List UInt8
  | none => []
  | some .standAloneSerial => writeInt32 tag 0
  | some .discard => writeInt32 tag 1
  | some .cover => writeInt32 tag 2

def TaskInfo.toByteArray (taskInfo : TaskInfo) : List UInt8 :=
  writeString 0x0A taskInfo.name ++ (writeString 0x12 taskInfo.params ++
    writeEnum 0x18 taskInfo.blockingStrategy)

def TaskResult.toByteArray (taskResult : TaskResult) : List UInt8 :=
  writeInt32 0x08 taskResult.code ++ (writeString 0x12 taskResult.remark ++
    (writeString 0x1A taskResult.messageId ++ writeString 0x22 taskResult.executorTime))

theorem head_writeEnum (strategy : Option BlockingStrategy) :
    (writeEnum 0x18 strategy).head? = none ∨ (writeEnum 0x18 strategy).head? = some 0x18 := by
  cases strategy with
  | none => exact .inl rfl
  | some strategy => cases strategy <;> exact .inr rfl

theorem writeEnum_injective : Function.Injective (writeEnum 0x18) := by
  intro a b h
  rcases a with _ | _ | _ | _ <;> rcases b with _ | _ | _ | _ <;>
    first | rfl | exact absurd h (by decide +kernel)

theorem taskInfo_injective : Function.Injective TaskInfo.toByteArray := by
  intro a b h
  have hparams (strategy : Option BlockingStrategy) :
      (writeEnum 0x18 strategy).head? ≠ some 0x12 := by
    rcases head_writeEnum strategy with h | h <;> rw [h] <;> decide
  have hname (taskInfo : TaskInfo) :
      (writeString 0x12 taskInfo.params ++ writeEnum 0x18 taskInfo.blockingStrategy).head? ≠
        some 0x0A := by
    rw [writeString, head_writeByteArray]
    split
    · decide
    · rcases head_writeEnum taskInfo.blockingStrategy with h | h <;> rw [h] <;> decide
  obtain ⟨hname, h⟩ := writeString_append_inj (hname a) (hname b) h
  obtain ⟨hparams, h⟩ := writeString_append_inj (hparams _) (hparams _) h
  have hstrategy := writeEnum_injective h
  cases a
  cases b
  simp_all

theorem taskResult_injective : Function.Injective TaskResult.toByteArray := by
  intro a b h
  have hmessageId (text : Option String) : (writeString 0x22 text ++ []).head? ≠ some 0x1A := by
    rw [writeString, head_writeByteArray]
    split <;> decide
  have hremark (messageId text : Option String) :
      (writeString 0x1A messageId ++ (writeString 0x22 text ++ [])).head? ≠ some 0x12 := by
    rw [writeString, writeString, head_writeByteArray, head_writeByteArray]
    split
    · decide
    · split <;> decide
  rw [TaskResult.toByteArray, TaskResult.toByteArray, ← List.append_nil (writeString 0x22 _),
    ← List.append_nil (writeString 0x22 b.executorTime)] at h
  obtain ⟨hcode, h⟩ := writeInt32_append_inj h
  obtain ⟨hremark, h⟩ := writeString_append_inj (hremark _ _) (hremark _ _) h
  obtain ⟨hmessageId, h⟩ := writeString_append_inj (hmessageId _) (hmessageId _) h
  obtain ⟨htime, -⟩ := writeString_append_inj (by simp) (by simp) h
  cases a
  cases b
  simp_all

/-- A result begins with its code, which a task does not have. -/
theorem taskResult_ne_taskInfo (taskResult : TaskResult) (taskInfo : TaskInfo) :
    TaskResult.toByteArray taskResult ≠ taskInfo.toByteArray := by
  intro h
  have hhead : some 0x08 = taskInfo.toByteArray.head? := congrArg List.head? h
  rw [TaskInfo.toByteArray, writeString, writeString, head_writeByteArray,
    head_writeByteArray] at hhead
  revert hhead
  split
  · decide
  · split
    · decide
    · rcases head_writeEnum taskInfo.blockingStrategy with h | h <;> rw [h] <;> decide

/-- Decoding a task as a result may give any result. -/
theorem exists_reads (taskInfo : TaskInfo) (taskResult : TaskResult) :
    ∃ (results : Protostuff TaskResult) (infos : Protostuff TaskInfo),
      readResult results (infos.bean2Byte taskInfo) = some taskResult := by
  obtain ⟨byte2Info, hinfo⟩ := exists_undoes taskInfo_injective
  obtain ⟨byte2Result, hresult⟩ := exists_undoes taskResult_injective
  refine ⟨⟨fun r => some (TaskResult.toByteArray r),
    Function.update byte2Result taskInfo.toByteArray (some taskResult), fun r => ?_⟩,
    ⟨_, byte2Info, hinfo⟩, Function.update_self _ _ _⟩
  obtain ⟨bytes, hbytes, hbean⟩ := hresult r
  obtain rfl := Option.some.inj hbytes
  refine ⟨_, rfl, ?_⟩
  rw [Function.update_of_ne (taskResult_ne_taskInfo r taskInfo)]
  exact hbean

end Forms

namespace TaskExecutor

/-! ## What is reported -/

section Reports

variable (results : Protostuff TaskResult) (infos : Protostuff TaskInfo)
  (repository : ZzhJobRepository) (taskInfo : TaskInfo) (messageId : Option String)
  (executorTime : String)

def Succeeds : Prop :=
  ∃ jobTrigger, repository.CACHE taskInfo.name = some jobTrigger ∧ jobTrigger taskInfo = .ok true

/-- One message is accepted, in which the callback reads the result of the task. -/
def Reports : Prop :=
  ∃ message, run results infos repository taskInfo messageId executorTime = [message] ∧
    message.type = ClientMessage.RESULT ∧ message.messageId = messageId ∧
    ∃ taskResult, readResult results message.data = some taskResult ∧
      taskResult.messageId = messageId ∧
      (taskResult.code = TaskResult.SUCCESS ↔ Succeeds repository taskInfo)

variable {results infos repository taskInfo messageId executorTime}

theorem code_taskResult (execute : Except (Option String) Bool) :
    (taskResult messageId executorTime execute).messageId = messageId ∧
      ((taskResult messageId executorTime execute).code = TaskResult.SUCCESS ↔
        execute = .ok true) := by
  match execute with
  | .ok true => exact ⟨rfl, iff_of_true rfl rfl⟩
  | .ok false => exact ⟨rfl, iff_of_false (show (5000 : JInt) ≠ 0 by decide) (by simp)⟩
  | .error e => exact ⟨rfl, iff_of_false (show (5000 : JInt) ≠ 0 by decide) (by simp)⟩

theorem reports_of_some {jobTrigger : JobTrigger}
    (hcache : repository.CACHE taskInfo.name = some jobTrigger) :
    Reports results infos repository taskInfo messageId executorTime := by
  obtain ⟨hid, hcode⟩ := @code_taskResult messageId executorTime (jobTrigger taskInfo)
  obtain ⟨bytes, hbytes, hbean⟩ :=
    results.undoes (taskResult messageId executorTime (jobTrigger taskInfo))
  have hread : readResult results
      (finished results messageId executorTime (jobTrigger taskInfo)).data =
        some (taskResult messageId executorTime (jobTrigger taskInfo)) := by
    rw [finished, hbytes]
    exact hbean
  refine ⟨_, by rw [run, hcache], rfl, rfl, _, hread, hid, hcode.trans ?_⟩
  constructor
  · exact fun h => ⟨jobTrigger, hcache, h⟩
  · intro ⟨other, hother, h⟩
    obtain rfl := Option.some.inj (hcache.symm.trans hother)
    exact h

/-- Without a trigger nothing keeps the callback from reading a success. -/
theorem exists_not_reports (hcache : repository.CACHE taskInfo.name = none) :
    ∃ (results : Protostuff TaskResult) (infos : Protostuff TaskInfo),
      ¬ Reports results infos repository taskInfo messageId executorTime := by
  obtain ⟨results, infos, hread⟩ := exists_reads taskInfo ⟨0, none, messageId, none⟩
  refine ⟨results, infos, ?_⟩
  intro hreports
  obtain ⟨message, hrun, -, -, taskResult, hresult, -, hcode⟩ := hreports
  rw [run, hcache] at hrun
  obtain rfl := List.singleton_inj.mp hrun
  obtain rfl := Option.some.inj (hread.symm.trans hresult)
  obtain ⟨jobTrigger, hsome, -⟩ := hcode.mp rfl
  rw [hcache] at hsome
  cases hsome

end Reports

/-- However the classes are encoded, a run reports its result exactly if there is a trigger. -/
theorem reports_iff (repository : ZzhJobRepository) (taskInfo : TaskInfo)
    (messageId : Option String) (executorTime : String) :
    (∀ (results : Protostuff TaskResult) (infos : Protostuff TaskInfo),
        Reports results infos repository taskInfo messageId executorTime) ↔
      ∃ jobTrigger, repository.CACHE taskInfo.name = some jobTrigger := by
  constructor
  · intro h
    cases hcache : repository.CACHE taskInfo.name with
    | none =>
      obtain ⟨results, infos, hnot⟩ := exists_not_reports hcache
      exact absurd (h results infos) hnot
    | some jobTrigger => exact ⟨jobTrigger, rfl⟩
  · intro ⟨jobTrigger, hcache⟩ results infos
    exact reports_of_some hcache

/-- A task of which the executor does not know the name. -/
theorem not_reports : ¬ ∀ (results : Protostuff TaskResult) (infos : Protostuff TaskInfo)
    (repository : ZzhJobRepository) (taskInfo : TaskInfo) (messageId : Option String)
    (executorTime : String), Reports results infos repository taskInfo messageId executorTime := by
  intro h
  obtain ⟨results, infos, hnot⟩ := @exists_not_reports ⟨fun _ => none⟩
    ⟨some "report", none, some .discard⟩ (some "m1") "2021-03-04T14:27:00" rfl
  exact hnot (h results infos _ _ _ _)

end TaskExecutor

end BigPlan.Job.Wire
