import BigPlan.Job.JobTable
import BigPlan.Vertx.SaveFind

/-!
# Retries of a task

A message from its first dispatch to the event with its final result. How often it may be
sent again stands in the two callback caches, and how often it has been stands in the job log;
both are read back through keys and types that have to agree.
-/
namespace BigPlan.Job

open Vertx (Redis Client Field Entity RedisEntityDescriptor)
open Vertx.RedisEntityDescriptor
open Lib.Java

/-! ## Messages -/

structure ServerMessage where
  messageId : String
  code : JInt
  error : Option String
  data : List UInt8
  type : JInt
  deriving DecidableEq, Repr

structure ZeusServerMessage where
  serviceName : Option String
  message : ServerMessage
  ip : String
  port : JInt
  deriving DecidableEq, Repr

structure TaskResult where
  code : JInt
  remark : Option String
  messageId : Option String
  executorTime : Option String
  deriving DecidableEq, Repr

def TaskResult.SUCCESS : JInt := 0

/-- The data is the serialized result of the task. -/
structure ClientMessage where
  messageId : String
  code : JInt
  error : Option String
  data : TaskResult
  type : JInt
  deriving DecidableEq, Repr

/-- `ClientMessage.Type.RESULT`. -/
def ClientMessage.RESULT : JInt := 2

/-- The values in the texts of the callback caches. -/
inductive Json where
  | int (n : JInt)
  | message (zeusServerMessage : ZeusServerMessage)
  deriving DecidableEq, Repr

abbrev JsonObject := AList fun _ : String => Json

/-- `null`, or an exception, where there is no number. -/
def JsonObject.getInteger (json : JsonObject) (key : String) : Option JInt :=
  match json.lookup key with
  | some (.int n) => some n
  | _ => none

def JsonObject.getMessage (json : JsonObject) (key : String) : Option ZeusServerMessage :=
  match json.lookup key with
  | some (.message m) => some m
  | _ => none

/-! ## The job log -/

/-- Values of the types that `JobLogEntity` has fields of; a date is its text. -/
abbrev javaClient : Client where
  Value
    | .string | .localDateTime => String
    | .boolean => Bool
    | .long => JLong
    | .int => JInt
    | _ => Empty
  text {t} := match t with
    | .string | .localDateTime => fun value => value
    | .boolean => fun value => toString value
    | .long => fun (value : JLong) => toString value.toInt
    | .int => fun (value : JInt) => toString value.toInt
    | .integer | .byte | .bytes | .short | .bigInteger | .double | .bigDecimal => Empty.elim
  read
    | .string, text | .localDateTime, text => some text
    | .boolean, text => some (text == "true")
    | .long, text => text.toInt?.map (BitVec.ofInt 64)
    | .int, text => text.toInt?.map (BitVec.ofInt 32)
    | .integer, _ | .byte, _ | .bytes, _ | .short, _ | .bigInteger, _ | .double, _
    | .bigDecimal, _ => none
  zero := (0 : JInt)

abbrev JobLog := Entity javaClient

namespace JobLog

abbrev id : Field := ⟨"id", .string⟩
abbrev jobId : Field := ⟨"jobId", .long⟩
abbrev triggerTime : Field := ⟨"triggerTime", .localDateTime⟩
abbrev triggerResult : Field := ⟨"triggerResult", .boolean⟩
abbrev triggerRemark : Field := ⟨"triggerRemark", .string⟩
abbrev executorTime : Field := ⟨"executorTime", .localDateTime⟩
abbrev executorResult : Field := ⟨"executorResult", .boolean⟩
abbrev executorRemark : Field := ⟨"executorRemark", .string⟩
abbrev retryTimes : Field := ⟨"retryTimes", .int⟩
abbrev params : Field := ⟨"params", .string⟩

def set (log : JobLog) (field : Field) (value : Option (javaClient.Value field.type)) : JobLog :=
  Function.update log field value

/-- `new JobLogEntity()` with an id. -/
def new (messageId : String) : JobLog := JobLog.set (newInstance javaClient) id (some messageId)

/-- `JobLogEntity.of`, with what `sendTaskInfo` sets. -/
def of (job : JLong) (now messageId remark : String) (taskParams : Option String) : JobLog :=
  new messageId |>.set jobId (some job) |>.set triggerTime (some now)
    |>.set triggerResult (some false) |>.set params taskParams |>.set triggerRemark (some remark)

end JobLog

/-! ## The server -/

/-- Who hears of the last request to the executor. -/
inductive Awaiting where
  | nothing
  | triggered
  | retried (retryTimes : JInt) (message : ClientMessage)
  deriving DecidableEq, Repr

structure JobServer where
  redis : Redis
  failCallbackCache : String → Option JsonObject
  resultCallbackCache : String → Option JsonObject
  /-- The requests to the executor. -/
  sent : List ZeusServerMessage
  /-- The events with a final result. -/
  finals : List JobLog
  awaiting : Awaiting

/-- How a dispatch comes out: the executor cannot be reached, or it sends a result. -/
inductive Outcome where
  | failedDispatch
  | result (taskResult : TaskResult)
  deriving DecidableEq, Repr

def Outcome.Succeeds : Outcome → Prop
  | .failedDispatch => False
  | .result taskResult => taskResult.code = TaskResult.SUCCESS

theorem Outcome.exists_result {outcome : Outcome} (h : outcome.Succeeds) :
    ∃ taskResult, outcome = .result taskResult ∧ taskResult.code = TaskResult.SUCCESS := by
  cases outcome with
  | failedDispatch => cases h
  | result taskResult => exact ⟨taskResult, rfl, h⟩

/-- An outcome with the clock at its arrival. -/
structure Arrival where
  outcome : Outcome
  currentTimeMillis : JLong
  now : String
  deriving DecidableEq, Repr

namespace JobServer

variable (s : JobServer)

def send (m : ZeusServerMessage) (awaiting : Awaiting) : JobServer :=
  { s with sent := s.sent ++ [m], awaiting }

/-- `ZeusTaskResultCallbackCacheHandler`. -/
def zeusTaskResultCallbackCacheHandler (m : ZeusServerMessage) : JobServer := s.send m .triggered

/-- `ZeusTaskFailCallbackCacheHandler`. -/
def zeusTaskFailCallbackCacheHandler (messageId : String) (retryTime : JInt)
    (m : ZeusServerMessage) : JobServer :=
  zeusTaskResultCallbackCacheHandler
    { s with
      resultCallbackCache := Function.update s.resultCallbackCache messageId
        (some (AList.insert "retryTime" (.int retryTime) ∅)) } m

/-- `SaveJobLogHandler.handle`. -/
def saveJobLogHandler (job : JobEntity) (messageId : String) (m : ZeusServerMessage) : JobServer :=
  let retryTime := job.retryTimes.getD 0
  if (0 : JInt).slt retryTime then
    { s with
      failCallbackCache := Function.update s.failCallbackCache messageId
        (some (AList.insert "zeusServerMessage" (.message m)
          (AList.insert "retryTime" (.int retryTime) ∅))) }.zeusTaskFailCallbackCacheHandler
      messageId retryTime m
  else
    { s with
      resultCallbackCache := Function.update s.resultCallbackCache messageId
        (some (AList.insert "retryTime" (.int retryTime) ∅)) }.zeusTaskResultCallbackCacheHandler m

/-- Logs are saved without a timeout. -/
def save (log : JobLog) (currentTimeMillis : JLong) : Option Unit × JobServer :=
  let (answer, redis) := (Vertx.jobLog.save Vertx.expireTakes log currentTimeMillis 0).run s.redis
  (answer, { s with redis })

/-- The log is saved before the first dispatch. -/
def sendTaskInfo (job : JobEntity) (m : ZeusServerMessage) (log : JobLog)
    (currentTimeMillis : JLong) : JobServer :=
  match s.save log currentTimeMillis with
  | (some _, s) => s.saveJobLogHandler job m.message.messageId m
  | (none, s) => s

/-- `ZeusTaskFailCallback.callback`. -/
def zeusTaskFailCallback (m : ZeusServerMessage) (retryTimes : JInt) (message : ClientMessage)
    (now : String) : JobServer :=
  { s with
    failCallbackCache := Function.update s.failCallbackCache message.messageId
      (some (AList.insert "zeusServerMessage" (.message m)
        (AList.insert "retryTimes" (.int retryTimes) ∅))) }.send m
    (.retried retryTimes { message with data := { message.data with executorTime := some now } })

/-- `TaskResultCallback.callback` with the log it has found; an exception in a handler ends it. -/
def dealResult (retryTimes : JInt) (message : ClientMessage) (arrival : Arrival) (log : JobLog) :
    JobServer :=
  let taskResult := message.data
  let retried : JInt := (log JobLog.retryTimes).getD (0 : JInt)
  if taskResult.code ≠ TaskResult.SUCCESS ∧ retried.slt retryTimes then
    match s.save (log.set JobLog.retryTimes (some (retried + 1 : JInt))) arrival.currentTimeMillis with
    | (none, s) => s
    | (some _, s) =>
      match s.failCallbackCache message.messageId with
      | none => s
      | some body =>
        let s := { s with
          failCallbackCache := Function.update s.failCallbackCache message.messageId none }
        match body.getInteger "retryTime", body.getMessage "zeusServerMessage" with
        | some retryTime, some m => s.zeusTaskFailCallback m retryTime message arrival.now
        | _, _ => s
  else
    let log := log.set JobLog.executorResult (some (decide (taskResult.code = TaskResult.SUCCESS)))
      |>.set JobLog.executorTime taskResult.executorTime
      |>.set JobLog.executorRemark taskResult.remark
    { s with
      failCallbackCache := Function.update s.failCallbackCache message.messageId none
      resultCallbackCache := Function.update s.resultCallbackCache message.messageId none
      finals := s.finals ++ [log] }

/-- A request that fails is only logged. -/
def taskResultCallback (retryTimes : JInt) (message : ClientMessage) (arrival : Arrival) :
    JobServer :=
  if message.type = ClientMessage.RESULT then
    match Vertx.jobLog.findById javaClient s.redis message.messageId with
    | none => s
    | some log => s.dealResult retryTimes message arrival log
  else s

/-- The consumer of `CLIENT_MESSAGE_CALLBACK_ADDRESS`. -/
def clientMessageCallback (message : ClientMessage) (arrival : Arrival) : JobServer :=
  match s.resultCallbackCache message.messageId with
  | none => s
  | some json =>
    match json.getInteger "retryTime" with
    | none => s
    | some retryTimes => s.taskResultCallback retryTimes message arrival

/-- What `ZeusTaskResultCallbackCacheHandler` saves when its request is answered. -/
def saveTriggerResult (messageId : String) (success : Bool) (arrival : Arrival) : JobServer :=
  (s.save ((JobLog.new messageId).set JobLog.triggerResult (some success))
    arrival.currentTimeMillis).2

/-- The executor's message with the result of the task. -/
def resultMessage (messageId : String) (taskResult : TaskResult) : ClientMessage where
  messageId := messageId
  code := 0
  error := none
  data := taskResult
  type := ClientMessage.RESULT

/-- The outcome of the last dispatch, which none is awaited after. -/
def step (messageId : String) (s : JobServer) (arrival : Arrival) : JobServer :=
  let s' := { s with awaiting := .nothing }
  match s.awaiting, arrival.outcome with
  | .nothing, _ => s
  | .triggered, .failedDispatch => s'.saveTriggerResult messageId false arrival
  | .triggered, .result taskResult =>
    (s'.saveTriggerResult messageId true arrival).clientMessageCallback
      (resultMessage messageId taskResult) arrival
  | .retried retryTimes message, .failedDispatch => s'.taskResultCallback retryTimes message arrival
  | .retried _ _, .result taskResult =>
    s'.clientMessageCallback (resultMessage messageId taskResult) arrival

/-- The server after as many arrivals. -/
def after (messageId : String) (arrivals : Nat → Arrival) : Nat → JobServer
  | 0 => s
  | n + 1 => step messageId (after messageId arrivals n) (arrivals n)

/-! ## What the job log tells -/

section Log

variable {r : Redis} {messageId : String} {log : JobLog}

/-- An `int` is not read back, so the counter is always that of a new entity. -/
theorem found_retryTimes (hash : Vertx.Hash) :
    found javaClient Vertx.jobLog hash JobLog.retryTimes = some (0 : JInt) := by
  have hmem : JobLog.retryTimes ∈ Vertx.jobLog.fields := by decide
  by_cases h : Hidden javaClient Vertx.jobLog hash JobLog.retryTimes
  · rw [found_of_hidden hmem h]
    rfl
  · rw [found_of_not_hidden hmem h, readValue_of_not_isRead rfl]
    rfl

/-- Redis takes what is saved of the logs, and the hash of the message has its id, as after every
save. -/
structure Knows (r : Redis) (messageId : String) : Prop where
  typed : Vertx.jobLog.Typed r
  id : (r.hashes (Vertx.jobLog.keyOf messageId)).lookup "id" = some messageId

theorem keyOf_ne (messageId : String) : Vertx.jobLog.keyOf messageId ≠ Vertx.jobLog.pageKey :=
  keyOf_ne_pageKey (by decide) messageId

theorem found_id {hash : Vertx.Hash} (h : hash.lookup "id" = some messageId) :
    found javaClient Vertx.jobLog hash JobLog.id = some messageId := by
  have hmem : JobLog.id ∈ Vertx.jobLog.fields := by decide
  have hbefore : Vertx.jobLog.before JobLog.id = [] := by decide
  have hnot : ¬ Hidden javaClient Vertx.jobLog hash JobLog.id := by
    intro hhidden
    obtain ⟨g, hg, -⟩ := hhidden
    rw [hbefore] at hg
    cases hg
  rw [found_of_not_hidden hmem hnot, readValue]
  have hlookup : hash.lookup JobLog.id.name = some messageId := h
  rw [hlookup]
  rfl

/-- The log that is found has the counter of a new one, and its id. -/
theorem exists_findById (h : Vertx.jobLog.Typed r) (messageId : String) : ∃ log : JobLog,
    Vertx.jobLog.findById javaClient r messageId = some log ∧
      log JobLog.retryTimes = some (0 : JInt) ∧
      (Knows r messageId → log JobLog.id = some messageId) := by
  obtain ⟨hash, hhash⟩ := h.hash messageId (keyOf_ne messageId)
  refine ⟨_, findById_eq hhash, found_retryTimes hash, fun hknows => found_id ?_⟩
  rw [← hknows.id, Redis.hashes, hhash, Option.getD_some]

theorem exists_save (htyped : Vertx.jobLog.Typed r) (h : log JobLog.id = some messageId)
    (millis : JLong) : ∃ redis, (Vertx.jobLog.save Vertx.expireTakes log millis 0).run r =
      (some (), redis) ∧ Knows redis messageId := by
  have hid : Vertx.jobLog.getId log = some messageId := by
    unfold getId
    have hfield : log Vertx.jobLog.idField = some messageId := h
    rw [hfield]
    rfl
  have hne := keyOf_ne messageId
  obtain ⟨hash, hhash⟩ := htyped.hash messageId hne
  obtain ⟨set, hset⟩ := htyped.index
  have htakes : (0 : ℤ) < (0 : JLong).toInt → Vertx.expireTakes (0 : JLong).toInt = true := by
    decide
  have hanswer : ((Vertx.jobLog.save Vertx.expireTakes log millis 0).run r).1 = some () :=
    congrArg Prod.fst (run_save hid hhash hset hne htakes)
  have hmem : JobLog.id ∈ Vertx.jobLog.fields := by decide
  refine ⟨_, Prod.ext hanswer rfl, typed_save htyped hid hne, ?_⟩
  rw [Redis.hashes, hash?_save hid hhash]
  exact lookup_written_some hmem h _

end Log

/-! ## The two bodies of the fail callback -/

/-- As `SaveJobLogHandler` writes it. -/
def firstBody (retryTime : JInt) (m : ZeusServerMessage) : JsonObject :=
  AList.insert "zeusServerMessage" (.message m) (AList.insert "retryTime" (.int retryTime) ∅)

/-- As `ZeusTaskFailCallback` writes it. -/
def secondBody (retryTimes : JInt) (m : ZeusServerMessage) : JsonObject :=
  AList.insert "zeusServerMessage" (.message m) (AList.insert "retryTimes" (.int retryTimes) ∅)

theorem getInteger_firstBody (r : JInt) (m : ZeusServerMessage) :
    (firstBody r m).getInteger "retryTime" = some r := rfl

theorem getMessage_firstBody (r : JInt) (m : ZeusServerMessage) :
    (firstBody r m).getMessage "zeusServerMessage" = some m := rfl

theorem getInteger_secondBody (r : JInt) (m : ZeusServerMessage) :
    (secondBody r m).getInteger "retryTime" = none := rfl

/-! ## What a callback does -/

section Callback

variable (s : JobServer) (message : ClientMessage) (arrival : Arrival) {r : JInt}
  {m : ZeusServerMessage}

theorem exists_saved {log : JobLog} {messageId : String} (htyped : Vertx.jobLog.Typed s.redis)
    (h : log JobLog.id = some messageId) (millis : JLong) :
    ∃ redis, Knows redis messageId ∧ s.save log millis = (some (), { s with redis }) := by
  obtain ⟨redis, hsave, hknows⟩ := exists_save htyped h millis
  exact ⟨redis, hknows, by simp only [save, hsave]⟩

/-- A success, or a failure that is not to be retried, is the final result. -/
theorem taskResultCallback_final (htyped : Vertx.jobLog.Typed s.redis)
    (htype : message.type = ClientMessage.RESULT)
    (h : message.data.code = TaskResult.SUCCESS ∨ (0 : JInt).slt r = false) :
    ∃ log : JobLog, log JobLog.executorResult =
        some (decide (message.data.code = TaskResult.SUCCESS)) ∧
      s.taskResultCallback r message arrival =
        { s with
          failCallbackCache := Function.update s.failCallbackCache message.messageId none
          resultCallbackCache := Function.update s.resultCallbackCache message.messageId none
          finals := s.finals ++ [log] } := by
  obtain ⟨log, hfind, hcount, -⟩ := exists_findById htyped message.messageId
  simp only [taskResultCallback, if_pos htype, hfind, dealResult, hcount, Option.getD_some]
  rw [if_neg]
  · exact ⟨_, rfl, rfl⟩
  · intro hretry
    rcases h with h | h
    · exact hretry.1 h
    · rw [h] at hretry
      cases hretry.2

/-- The first failure finds the count in the body that `SaveJobLogHandler` has written. -/
theorem taskResultCallback_first (htype : message.type = ClientMessage.RESULT)
    (hcode : message.data.code ≠ TaskResult.SUCCESS) (hr : (0 : JInt).slt r = true)
    (hknows : Knows s.redis message.messageId)
    (hbody : s.failCallbackCache message.messageId = some (firstBody r m)) :
    ∃ redis, Knows redis message.messageId ∧
      s.taskResultCallback r message arrival =
        { s with
          redis
          failCallbackCache := Function.update s.failCallbackCache message.messageId
            (some (secondBody r m))
          sent := s.sent ++ [m]
          awaiting := .retried r
            { message with data := { message.data with executorTime := some arrival.now } } } := by
  obtain ⟨log, hfind, hcount, hid⟩ := exists_findById hknows.typed message.messageId
  have hid' : log.set JobLog.retryTimes (some (0 + 1 : JInt)) JobLog.id = some message.messageId :=
    hid hknows
  obtain ⟨redis, hknows', hsave⟩ := exists_saved s hknows.typed hid' arrival.currentTimeMillis
  refine ⟨redis, hknows', ?_⟩
  simp only [taskResultCallback, if_pos htype, hfind, dealResult, hcount, Option.getD_some]
  rw [if_pos ⟨hcode, hr⟩]
  simp only [hsave, hbody, getInteger_firstBody, getMessage_firstBody, zeusTaskFailCallback, send,
    Function.update_idem]
  rfl

/-- The next one looks for a key that `ZeusTaskFailCallback` has not written. -/
theorem taskResultCallback_second (htype : message.type = ClientMessage.RESULT)
    (hcode : message.data.code ≠ TaskResult.SUCCESS) (hr : (0 : JInt).slt r = true)
    (hknows : Knows s.redis message.messageId)
    (hbody : s.failCallbackCache message.messageId = some (secondBody r m)) :
    ∃ redis, s.taskResultCallback r message arrival =
      { s with
        redis
        failCallbackCache := Function.update s.failCallbackCache message.messageId none } := by
  obtain ⟨log, hfind, hcount, hid⟩ := exists_findById hknows.typed message.messageId
  have hid' : log.set JobLog.retryTimes (some (0 + 1 : JInt)) JobLog.id = some message.messageId :=
    hid hknows
  obtain ⟨redis, -, hsave⟩ := exists_saved s hknows.typed hid' arrival.currentTimeMillis
  refine ⟨redis, ?_⟩
  simp only [taskResultCallback, if_pos htype, hfind, dealResult, hcount, Option.getD_some]
  rw [if_pos ⟨hcode, hr⟩]
  simp only [hsave, hbody, getInteger_secondBody]

theorem clientMessageCallback_eq
    (h : s.resultCallbackCache message.messageId = some (AList.insert "retryTime" (.int r) ∅)) :
    s.clientMessageCallback message arrival = s.taskResultCallback r message arrival := by
  have hinteger : JsonObject.getInteger (AList.insert "retryTime" (.int r) ∅) "retryTime" =
      some r := rfl
  simp only [clientMessageCallback, h, hinteger]

theorem saveTriggerResult_eq (htyped : Vertx.jobLog.Typed s.redis) (messageId : String)
    (success : Bool) : ∃ redis, Knows redis messageId ∧
      s.saveTriggerResult messageId success arrival = { s with redis } := by
  have hid : (JobLog.new messageId).set JobLog.triggerResult (some success) JobLog.id =
      some messageId := rfl
  obtain ⟨redis, hknows, hsave⟩ := exists_saved s htyped hid arrival.currentTimeMillis
  exact ⟨redis, hknows, by simp only [saveTriggerResult, hsave]⟩

end Callback

/-! ## The phases of a message -/

/-- The first dispatch is out. -/
structure Triggered (messageId : String) (r : JInt) (m : ZeusServerMessage) (s : JobServer) :
    Prop where
  awaiting : s.awaiting = .triggered
  typed : Vertx.jobLog.Typed s.redis
  sent : s.sent = [m]
  finals : s.finals = []
  result : s.resultCallbackCache messageId = some (AList.insert "retryTime" (.int r) ∅)
  fail : (0 : JInt).slt r = true → s.failCallbackCache messageId = some (firstBody r m)

/-- The second dispatch is out, after a failure. -/
structure Retried (messageId : String) (r : JInt) (m : ZeusServerMessage) (s : JobServer) :
    Prop where
  awaiting : ∃ message : ClientMessage, s.awaiting = .retried r message ∧
    message.messageId = messageId ∧ message.type = ClientMessage.RESULT ∧
    message.data.code ≠ TaskResult.SUCCESS
  sent : s.sent = [m, m]
  finals : s.finals = []
  knows : Knows s.redis messageId
  retries : (0 : JInt).slt r = true
  result : s.resultCallbackCache messageId = some (AList.insert "retryTime" (.int r) ∅)
  fail : s.failCallbackCache messageId = some (secondBody r m)

/-- Nothing more is sent, and there has been no event. -/
structure Halted (s : JobServer) : Prop where
  awaiting : s.awaiting = .nothing
  finals : s.finals = []

/-- One event with the final result, and nothing is left of the message. -/
structure Ended (messageId : String) (dispatches : Nat) (result : Bool) (s : JobServer) :
    Prop where
  dispatched : s.sent.length = dispatches
  finals : s.finals.map (fun log => log JobLog.executorResult) = [some result]
  failCallback : s.failCallbackCache messageId = none
  resultCallback : s.resultCallbackCache messageId = none

def start (redis : Redis) (failCallbackCache resultCallbackCache : String → Option JsonObject) :
    JobServer :=
  ⟨redis, failCallbackCache, resultCallbackCache, [], [], .nothing⟩

section Phases

variable {s : JobServer} {messageId : String} {r : JInt} {m : ZeusServerMessage} {arrival : Arrival}

theorem triggered_saveJobLogHandler {redis : Redis} (htyped : Vertx.jobLog.Typed redis)
    (failCallbackCache resultCallbackCache : String → Option JsonObject) (job : JobEntity)
    (messageId : String) (m : ZeusServerMessage) :
    Triggered messageId (job.retryTimes.getD 0) m
      ((start redis failCallbackCache resultCallbackCache).saveJobLogHandler job messageId m) := by
  cases hr : (0 : JInt).slt (job.retryTimes.getD 0) with
  | true =>
    simp only [saveJobLogHandler, hr, if_true]
    exact ⟨rfl, htyped, rfl, rfl, Function.update_self .., fun _ => Function.update_self ..⟩
  | false =>
    simp only [saveJobLogHandler, hr, Bool.false_eq_true, if_false]
    refine ⟨rfl, htyped, rfl, rfl, Function.update_self .., fun h => ?_⟩
    rw [hr] at h
    cases h

theorem halted_of_triggered (h : Triggered messageId r m s) (hout : arrival.outcome = .failedDispatch) :
    Halted (step messageId s arrival) := by
  obtain ⟨redis, -, heq⟩ :=
    saveTriggerResult_eq { s with awaiting := .nothing } arrival h.typed messageId false
  simp only [step, h.awaiting, hout, heq]
  exact ⟨rfl, h.finals⟩

theorem ended_of_triggered (h : Triggered messageId r m s) {taskResult : TaskResult}
    (hout : arrival.outcome = .result taskResult)
    (hlast : taskResult.code = TaskResult.SUCCESS ∨ (0 : JInt).slt r = false) :
    (step messageId s arrival).awaiting = .nothing ∧
      Ended messageId 1 (decide (taskResult.code = TaskResult.SUCCESS))
        (step messageId s arrival) := by
  obtain ⟨redis, hknows, heq⟩ :=
    saveTriggerResult_eq { s with awaiting := .nothing } arrival h.typed messageId true
  obtain ⟨log, hlog, hfinal⟩ := taskResultCallback_final
    { s with awaiting := .nothing, redis } (resultMessage messageId taskResult) arrival
    hknows.typed rfl hlast
  simp only [step, h.awaiting, hout, heq]
  rw [clientMessageCallback_eq _ _ arrival h.result, hfinal]
  refine ⟨rfl, ⟨congrArg List.length h.sent, ?_, Function.update_self .., Function.update_self ..⟩⟩
  simp only [h.finals, List.nil_append, List.map_cons, List.map_nil, hlog]
  rfl

theorem retried_of_triggered (h : Triggered messageId r m s) {taskResult : TaskResult}
    (hout : arrival.outcome = .result taskResult) (hcode : taskResult.code ≠ TaskResult.SUCCESS)
    (hr : (0 : JInt).slt r = true) : Retried messageId r m (step messageId s arrival) := by
  obtain ⟨redis, hknows, heq⟩ :=
    saveTriggerResult_eq { s with awaiting := .nothing } arrival h.typed messageId true
  obtain ⟨redis', hknows', hfirst⟩ := taskResultCallback_first
    { s with awaiting := .nothing, redis } (resultMessage messageId taskResult) arrival rfl hcode
    hr hknows (h.fail hr)
  simp only [step, h.awaiting, hout, heq]
  rw [clientMessageCallback_eq _ _ arrival h.result, hfirst]
  exact {
    awaiting := ⟨_, rfl, rfl, rfl, hcode⟩
    sent := by simp only [h.sent, List.singleton_append]
    finals := h.finals
    knows := hknows'
    retries := hr
    result := h.result
    fail := Function.update_self .. }

theorem ended_of_retried (h : Retried messageId r m s) {taskResult : TaskResult}
    (hout : arrival.outcome = .result taskResult) (hcode : taskResult.code = TaskResult.SUCCESS) :
    (step messageId s arrival).awaiting = .nothing ∧
      Ended messageId 2 true (step messageId s arrival) := by
  obtain ⟨message, hawaiting, -⟩ := h.awaiting
  obtain ⟨log, hlog, hfinal⟩ := taskResultCallback_final
    { s with awaiting := .nothing } (resultMessage messageId taskResult) arrival (r := r)
    h.knows.typed rfl (.inl hcode)
  simp only [step, hawaiting, hout]
  rw [clientMessageCallback_eq _ _ arrival h.result, hfinal]
  refine ⟨rfl, ⟨congrArg List.length h.sent, ?_, Function.update_self .., Function.update_self ..⟩⟩
  have htrue : decide ((resultMessage messageId taskResult).data.code = TaskResult.SUCCESS) = true :=
    decide_eq_true hcode
  simp only [h.finals, List.nil_append, List.map_cons, List.map_nil, hlog, htrue]

/-- The second failure in a row finds no count, whether the executor reports it or cannot be
reached. -/
theorem halted_of_retried (h : Retried messageId r m s) (hout : ∀ taskResult,
    arrival.outcome = .result taskResult → taskResult.code ≠ TaskResult.SUCCESS) :
    Halted (step messageId s arrival) := by
  obtain ⟨message, hawaiting, hid, htype, hcode⟩ := h.awaiting
  cases houtcome : arrival.outcome with
  | failedDispatch =>
    obtain ⟨redis, hsecond⟩ := taskResultCallback_second { s with awaiting := .nothing } message
      arrival htype hcode h.retries (hid ▸ h.knows) (hid ▸ h.fail)
    simp only [step, hawaiting, houtcome, hsecond]
    exact ⟨rfl, h.finals⟩
  | result taskResult =>
    obtain ⟨redis, hsecond⟩ := taskResultCallback_second { s with awaiting := .nothing }
      (resultMessage messageId taskResult) arrival rfl (hout taskResult houtcome)
      h.retries h.knows h.fail
    simp only [step, hawaiting, houtcome]
    rw [clientMessageCallback_eq _ _ arrival h.result, hsecond]
    exact ⟨rfl, h.finals⟩

/-- Without a dispatch that is out there is nothing to come. -/
theorem step_of_nothing (h : s.awaiting = .nothing) (arrival : Arrival) :
    step messageId s arrival = s := by
  simp only [step, h]

theorem after_of_nothing {arrivals : Nat → Arrival} {k n : Nat}
    (h : (s.after messageId arrivals k).awaiting = .nothing) (hk : k ≤ n) :
    s.after messageId arrivals n = s.after messageId arrivals k := by
  induction n, hk using Nat.le_induction with
  | base => rfl
  | succ n _ ih => rw [after, ih, step_of_nothing h]

end Phases

/-! ## The protocol -/

/-- The retries that a job is to have; `null` counts as none. -/
def retryLimit (job : JobEntity) : Nat := (job.retryTimes.getD 0).toInt.toNat

theorem slt_retryTimes {job : JobEntity} :
    (0 : JInt).slt (job.retryTimes.getD 0) = true ↔ 0 < retryLimit job := by
  have hzero : (0 : JInt).toInt = 0 := rfl
  simp only [BitVec.slt, hzero, decide_eq_true_eq, retryLimit]
  omega

/-- What a message is to come to: it is sent until the first success, or as often as it may,
and there is one event with the final result. -/
structure Retries (messageId : String) (r : Nat) (arrivals : Nat → Arrival) (s : JobServer) :
    Prop where
  succeeds : ∀ k ≤ r, (arrivals k).outcome.Succeeds →
    (∀ i < k, ¬ (arrivals i).outcome.Succeeds) → Ended messageId (k + 1) true s
  fails : (∀ i ≤ r, ¬ (arrivals i).outcome.Succeeds) → Ended messageId (1 + r) false s

/-- The first dispatch succeeds, or it fails with a result, and there is no retry or the first
one succeeds. -/
def AtMostOneRetry (r : Nat) (arrivals : Nat → Arrival) : Prop :=
  (arrivals 0).outcome.Succeeds ∨
    (arrivals 0).outcome ≠ .failedDispatch ∧ (r = 0 ∨ (arrivals 1).outcome.Succeeds)

section Protocol

variable {s : JobServer} {messageId : String} {r : Nat} {arrivals : Nat → Arrival}

theorem not_retries_of_halted (h : Halted s) : ¬ Retries messageId r arrivals s := by
  intro hretries
  have hne (result : Bool) :
      s.finals.map (fun log => log JobLog.executorResult) ≠ [some result] := by
    rw [h.finals]
    exact List.cons_ne_nil _ _ |>.symm
  by_cases hall : ∀ i ≤ r, ¬ (arrivals i).outcome.Succeeds
  · exact hne _ (hretries.fails hall).finals
  · have hsome : ∃ k, k ≤ r ∧ (arrivals k).outcome.Succeeds := by
      push Not at hall
      exact hall
    classical
    obtain ⟨hk, hsucceeds⟩ := Nat.find_spec hsome
    refine hne _ (hretries.succeeds _ hk hsucceeds fun i hi hsucc => ?_).finals
    exact Nat.find_min hsome hi ⟨hi.le.trans hk, hsucc⟩

theorem retries_of_first (h0 : (arrivals 0).outcome.Succeeds) (h : Ended messageId 1 true s) :
    Retries messageId r arrivals s := by
  refine ⟨fun k _ _ hbefore => ?_, fun hall => absurd h0 (hall 0 (Nat.zero_le r))⟩
  cases k with
  | zero => exact h
  | succ k => exact absurd h0 (hbefore 0 (Nat.succ_pos k))

theorem retries_of_second (h0 : ¬ (arrivals 0).outcome.Succeeds)
    (h1 : (arrivals 1).outcome.Succeeds) (hr : 0 < r) (h : Ended messageId 2 true s) :
    Retries messageId r arrivals s := by
  refine ⟨fun k _ hk hbefore => ?_, fun hall => absurd h1 (hall 1 hr)⟩
  match k with
  | 0 => exact absurd hk h0
  | 1 => exact h
  | k + 2 => exact absurd h1 (hbefore 1 (by omega))

theorem retries_of_none (h0 : ¬ (arrivals 0).outcome.Succeeds) (h : Ended messageId 1 false s) :
    Retries messageId 0 arrivals s := by
  refine ⟨fun k hk hsucceeds _ => ?_, fun _ => h⟩
  rw [Nat.le_zero.mp hk] at hsucceeds
  exact absurd hsucceeds h0

end Protocol

theorem triggered_sendTaskInfo {redis : Redis} (htyped : Vertx.jobLog.Typed redis)
    (failCallbackCache resultCallbackCache : String → Option JsonObject) (job : JobEntity)
    (m : ZeusServerMessage) (log : JobLog) (hid : log JobLog.id = some m.message.messageId)
    (millis : JLong) : Triggered m.message.messageId (job.retryTimes.getD 0) m
      ((start redis failCallbackCache resultCallbackCache).sendTaskInfo job m log millis) := by
  obtain ⟨redis', hknows, hsave⟩ :=
    exists_saved (start redis failCallbackCache resultCallbackCache) htyped hid millis
  simp only [sendTaskInfo, hsave]
  exact triggered_saveJobLogHandler hknows.typed failCallbackCache resultCallbackCache job _ m

/-- A state that is halted at some point stays short of the protocol. -/
theorem not_forall_retries {s : JobServer} {messageId : String} {arrivals : Nat → Arrival}
    {k r : Nat} (h : Halted (s.after messageId arrivals k)) :
    ¬ ∀ n, r < n → Retries messageId r arrivals (s.after messageId arrivals n) := by
  intro hall
  have hlast := hall (max k (r + 1)) (by omega)
  rw [after_of_nothing h.awaiting (le_max_left k _)] at hlast
  exact not_retries_of_halted h hlast

/-- A state that nothing follows on says what the message has come to. -/
theorem forall_retries {s : JobServer} {messageId : String} {arrivals : Nat → Arrival} {k r : Nat}
    (h : (s.after messageId arrivals k).awaiting = .nothing) (hk : k ≤ r + 1)
    (hretries : Retries messageId r arrivals (s.after messageId arrivals k)) :
    ∀ n, r < n → Retries messageId r arrivals (s.after messageId arrivals n) := by
  intro n hn
  rw [after_of_nothing h (hk.trans hn)]
  exact hretries

section Triggered

variable {s : JobServer} {messageId : String} {job : JobEntity} {m : ZeusServerMessage}
  {arrivals : Nat → Arrival} {taskResult : TaskResult}

theorem forall_retries_of_success (h : Triggered messageId (job.retryTimes.getD 0) m s)
    (h0 : (arrivals 0).outcome = .result taskResult) (hcode : taskResult.code = TaskResult.SUCCESS) :
    ∀ n, retryLimit job < n →
      Retries messageId (retryLimit job) arrivals (s.after messageId arrivals n) := by
  have hsucceeds : (arrivals 0).outcome.Succeeds := by
    rw [h0]
    exact hcode
  obtain ⟨hawaiting, hended⟩ := ended_of_triggered h h0 (.inl hcode)
  rw [decide_eq_true hcode] at hended
  exact forall_retries (k := 1) hawaiting (by omega) (retries_of_first hsucceeds hended)

/-- After a first failure it is the first retry that counts, if there is one. -/
theorem forall_retries_iff_of_failure (h : Triggered messageId (job.retryTimes.getD 0) m s)
    (h0 : (arrivals 0).outcome = .result taskResult) (hcode : taskResult.code ≠ TaskResult.SUCCESS) :
    (∀ n, retryLimit job < n →
      Retries messageId (retryLimit job) arrivals (s.after messageId arrivals n)) ↔
      retryLimit job = 0 ∨ (arrivals 1).outcome.Succeeds := by
  have hfailed : ¬ (arrivals 0).outcome.Succeeds := by
    rw [h0]
    exact hcode
  cases hr : (0 : JInt).slt (job.retryTimes.getD 0) with
  | false =>
    have hzero : retryLimit job = 0 := by
      have hnot := mt slt_retryTimes.mpr (Bool.eq_false_iff.mp hr)
      omega
    obtain ⟨hawaiting, hended⟩ := ended_of_triggered h h0 (.inr hr)
    rw [decide_eq_false hcode] at hended
    refine iff_of_true (forall_retries (k := 1) hawaiting (by omega) ?_) (.inl hzero)
    rw [hzero]
    exact retries_of_none hfailed hended
  | true =>
    have hpos := slt_retryTimes.mp hr
    have hretried := retried_of_triggered h h0 hcode hr
    by_cases h1 : (arrivals 1).outcome.Succeeds
    · obtain ⟨taskResult', h1', hcode'⟩ := Outcome.exists_result h1
      obtain ⟨hawaiting, hended⟩ := ended_of_retried hretried h1' hcode'
      exact iff_of_true (forall_retries (k := 2) hawaiting (by omega)
        (retries_of_second hfailed h1 hpos hended)) (.inr h1)
    · have hnext : Halted (s.after messageId arrivals 2) := by
        apply halted_of_retried hretried
        intro taskResult' h1' hcode'
        exact h1 (by rw [h1']; exact hcode')
      refine iff_of_false (not_forall_retries hnext) ?_
      intro honce
      rcases honce with hzero | hsucceeds
      · omega
      · exact h1 hsucceeds

end Triggered

/-- If Redis takes what is saved of the logs, a message comes to what its outcomes ask for exactly if
at most one retry is needed. -/
theorem retries_iff (job : JobEntity) (m : ZeusServerMessage) (redis : Redis)
    (hredis : Vertx.jobLog.Typed redis)
    (failCallbackCache resultCallbackCache : String → Option JsonObject) (jobId millis : JLong)
    (now remark : String) (params : Option String) (arrivals : Nat → Arrival) :
    (∀ n, retryLimit job < n → Retries m.message.messageId (retryLimit job) arrivals
      (((start redis failCallbackCache resultCallbackCache).sendTaskInfo job m
        (JobLog.of jobId now m.message.messageId remark params) millis).after
          m.message.messageId arrivals n)) ↔ AtMostOneRetry (retryLimit job) arrivals := by
  have htriggered := triggered_sendTaskInfo hredis failCallbackCache resultCallbackCache job m
    (JobLog.of jobId now m.message.messageId remark params) rfl millis
  generalize (start redis failCallbackCache resultCallbackCache).sendTaskInfo job m
    (JobLog.of jobId now m.message.messageId remark params) millis = s at htriggered ⊢
  generalize m.message.messageId = messageId at htriggered ⊢
  cases h0 : (arrivals 0).outcome with
  | failedDispatch =>
    refine iff_of_false (not_forall_retries (k := 1) (halted_of_triggered htriggered h0)) ?_
    intro honce
    rcases honce with hsucceeds | ⟨hne, -⟩
    · rw [h0] at hsucceeds
      exact hsucceeds
    · exact hne h0
  | result taskResult =>
    have hsucceeds : (arrivals 0).outcome.Succeeds ↔ taskResult.code = TaskResult.SUCCESS := by
      rw [h0]
      rfl
    have hdispatched : (arrivals 0).outcome ≠ .failedDispatch := by
      rw [h0]
      exact Outcome.noConfusion
    by_cases hcode : taskResult.code = TaskResult.SUCCESS
    · exact iff_of_true (forall_retries_of_success htriggered h0 hcode)
        (.inl (hsucceeds.mpr hcode))
    · rw [forall_retries_iff_of_failure htriggered h0 hcode]
      constructor
      · intro honce
        exact .inr ⟨hdispatched, honce⟩
      · intro honce
        exact (honce.resolve_left fun h => hcode (hsucceeds.mp h)).2

theorem typed_noKeys : Vertx.jobLog.Typed Vertx.noKeys :=
  ⟨⟨.empty, rfl⟩, fun _ _ => ⟨∅, rfl⟩⟩

/-- The task fails at its first attempt and succeeds from then on. -/
def failsOnce (n : Nat) : Arrival :=
  ⟨.result ⟨if n = 0 then 5000 else 0, none, some "m", none⟩, 1000, "now"⟩

/-- A job with one retry, whose task fails once and then succeeds. -/
theorem retries_iff_once : AtMostOneRetry 1 failsOnce ∧ ∀ n, 1 < n → Retries "m" 1 failsOnce
    (((start Vertx.noKeys (fun _ => none) (fun _ => none)).sendTaskInfo
      { syncJob with retryTimes := some 1 } ⟨none, ⟨"m", 0, none, [], 1⟩, "10.0.0.1", 8081⟩
      (JobLog.of 1 "now" "m" "" none) 1000).after "m" failsOnce n) := by
  have honce : AtMostOneRetry 1 failsOnce := .inr ⟨by decide, .inr rfl⟩
  exact ⟨honce, (retries_iff { syncJob with retryTimes := some 1 }
    ⟨none, ⟨"m", 0, none, [], 1⟩, "10.0.0.1", 8081⟩ Vertx.noKeys typed_noKeys (fun _ => none)
    (fun _ => none) 1 1000 "now" "" none failsOnce).mpr honce⟩

/-- A job with two retries whose task fails twice is not sent a third time. -/
theorem not_retries_twice :
    ¬ ∀ (job : JobEntity) (m : ZeusServerMessage) (redis : Redis),
      Vertx.jobLog.Typed redis →
      ∀ (failCallbackCache resultCallbackCache : String → Option JsonObject) (jobId millis : JLong)
      (now remark : String) (params : Option String) (arrivals : Nat → Arrival) (n : Nat),
      retryLimit job < n → Retries m.message.messageId (retryLimit job) arrivals
        (((start redis failCallbackCache resultCallbackCache).sendTaskInfo job m
          (JobLog.of jobId now m.message.messageId remark params) millis).after
            m.message.messageId arrivals n) := by
  intro h
  let job : JobEntity := { syncJob with retryTimes := some 2 }
  let m : ZeusServerMessage := ⟨none, ⟨"m", 0, none, [], 1⟩, "10.0.0.1", 8081⟩
  let failed : TaskResult := ⟨5000, none, some "m", none⟩
  let arrivals (n : Nat) : Arrival :=
    ⟨if n < 2 then .result failed else .result { failed with code := 0 }, 1000, "now"⟩
  let s := (start Vertx.noKeys (fun _ => none) (fun _ => none)).sendTaskInfo job m
    (JobLog.of 1 "now" "m" "" none) 1000
  have htriggered : Triggered "m" 2 m s :=
    triggered_sendTaskInfo typed_noKeys (fun _ => none) (fun _ => none) job m _ rfl 1000
  have hfirst : (arrivals 0).outcome = .result failed := rfl
  have hretried := retried_of_triggered htriggered hfirst (by decide) (by decide)
  have hsecond : ∀ taskResult, (arrivals 1).outcome = .result taskResult →
      taskResult.code ≠ TaskResult.SUCCESS := by
    intro taskResult hout
    cases hout
    decide
  have hhalted : Halted (s.after "m" arrivals 2) := halted_of_retried hretried hsecond
  have hall : ∀ n, 2 < n → Retries "m" 2 arrivals (s.after "m" arrivals n) :=
    h job m Vertx.noKeys typed_noKeys (fun _ => none) (fun _ => none) 1 1000 "now" "" none arrivals
  exact not_forall_retries hhalted hall

end JobServer

end BigPlan.Job
