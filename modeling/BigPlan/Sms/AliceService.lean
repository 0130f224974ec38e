import BigPlan.Auth.CodeExchange
import BigPlan.Lib.Expiring

/-!
# Sending short messages

`AliceServiceImpl.sendSms` as what it asks for, one thing after another: executions of
`sendSms.lua`, then a request of the gateway. The clock of Redis counts milliseconds. What the
repositories and the JSON parser return is a parameter.
-/
namespace BigPlan.Sms

open Lib (Expiring)
open Lib.Java (isBlank)
open Auth (splitComma)

inductive AliceError where
  | REQUEST_EXCEPTION
  | REQUEST_FAIL
  | SIGN_NOT_EXISTED
  | TEMPLATE_NOT_EXISTED
  | NOT_HAVE_CODE
  | CODE_ALWAYS_SINGLE
  | SEND_FREQUENTLY
  deriving DecidableEq, Repr

inductive Thrown where
  | business (error : AliceError)
  | nullPointer
  | json
  deriving DecidableEq, Repr

/-- Codes, notices, advertisements and messages abroad. -/
inductive TemplateType where
  | _0
  | _1
  | _2
  | _3
  deriving DecidableEq, Repr

def TemplateType.value : TemplateType → ℕ
  | _0 => 0
  | _1 => 1
  | _2 => 2
  | _3 => 3

inductive TimeUnit where
  | NANOSECONDS
  | MICROSECONDS
  | MILLISECONDS
  | SECONDS
  | MINUTES
  | HOURS
  | DAYS
  deriving DecidableEq, Repr

namespace TimeUnit

def nanos : TimeUnit → Int
  | NANOSECONDS => 1
  | MICROSECONDS => 1000
  | MILLISECONDS => 1000000
  | SECONDS => 1000000000
  | MINUTES => 60000000000
  | HOURS => 3600000000000
  | DAYS => 86400000000000

/-- A conversion that would leave the range of a long ends at its bound. -/
def saturated (n : Int) : Int := max (-2 ^ 63) (min n (2 ^ 63 - 1))

def toSeconds (unit : TimeUnit) (duration : Int) : Int :=
  match unit with
  | NANOSECONDS => duration.tdiv 1000000000
  | MICROSECONDS => duration.tdiv 1000000
  | MILLISECONDS => duration.tdiv 1000
  | SECONDS => duration
  | MINUTES => saturated (duration * 60)
  | HOURS => saturated (duration * 3600)
  | DAYS => saturated (duration * 86400)

/-- Positive and a number of whole seconds. -/
def Whole (unit : TimeUnit) (duration : Int) : Prop :=
  0 < duration ∧ 1000000000 ∣ duration * unit.nanos

instance (unit : TimeUnit) (duration : Int) : Decidable (unit.Whole duration) :=
  inferInstanceAs (Decidable (0 < duration ∧ 1000000000 ∣ duration * unit.nanos))

/-- The exact conversion, for durations that have no smaller part. -/
def millis (unit : TimeUnit) (duration : Int) : Int := duration * unit.nanos / 1000000

theorem millis_nonneg {unit : TimeUnit} {duration : Int} (h : unit.Whole duration) :
    0 ≤ unit.millis duration := by
  obtain ⟨hpos, -⟩ := h
  cases unit <;> simp only [millis, nanos] <;> omega

theorem toSeconds_eq_millis {unit : TimeUnit} {duration : Int} (h : unit.Whole duration)
    (hlt : unit.toSeconds duration < 2 ^ 63 - 1) :
    1000 * unit.toSeconds duration = unit.millis duration := by
  obtain ⟨hpos, hdvd⟩ := h
  cases unit with
  | NANOSECONDS | MICROSECONDS | MILLISECONDS =>
    simp only [nanos, toSeconds, millis, Int.tdiv_eq_ediv_of_nonneg (Int.le_of_lt hpos)] at *
    omega
  | SECONDS | MINUTES | HOURS | DAYS =>
    simp only [nanos, toSeconds, millis, saturated] at *
    omega

end TimeUnit

structure SendSmsVO where
  phoneNumbers : Option String
  signName : Option String
  templateCode : Option String
  smsUpExtendCode : Option String := none
  templateParam : Option String := none
  outId : Option String := none
  effectiveTime : Option Int
  intervals : Option Int
  timeUnit : Option TimeUnit
  deriving DecidableEq, Repr

structure SmsTemplatePO where
  templateContent : String
  templateType : TemplateType
  deriving DecidableEq, Repr

structure JSONObject where
  containsKey : Option String → Bool
  getString : Option String → Option String

/-- What the repositories and the parser return to a call. -/
structure Outside where
  existsBySignName : Option String → Bool
  findByTemplateCode : Option String → Option SmsTemplatePO
  parseObject : Option String → Except Thrown (Option JSONObject)

structure SendSmsResponse where
  code : Option String
  bizId : Option String
  deriving DecidableEq, Repr

/-! ## `sendSms.lua` -/

structure Argv where
  phoneNumber : String
  templateCode : String
  signName : String
  effectiveTime : Int
  intervals : Int
  type : String
  verifyCode : String
  deriving DecidableEq, Repr

namespace Argv

def keyForInIntervals (argv : Argv) : String :=
  "inIntervals:" ++ argv.signName ++ ":" ++ argv.templateCode ++ ":" ++ argv.phoneNumber

def keyForSaveVerifyCodes (argv : Argv) : String :=
  "verifyCode:" ++ argv.signName ++ ":" ++ argv.templateCode ++ ":" ++ argv.phoneNumber

end Argv

abbrev Redis := Expiring String String

/-- The command fails for a lifetime that is not positive or ends after the last time there is. -/
def SETEX (now : ℕ) (redis : Redis) (key : String) (seconds : Int) (value : String) : Option Redis :=
  if 0 < seconds ∧ now + 1000 * seconds < 2 ^ 63 then
    some (redis.put now key (1000 * seconds.toNat) value)
  else none

/-- The script, atomic, with `none` for an error. What it wrote before an error stays. -/
def sendSmsLua (now : ℕ) (redis : Redis) (argv : Argv) : Redis × Option String :=
  if (redis.get now argv.keyForInIntervals).isSome then (redis, some "1")
  else
    match SETEX now redis argv.keyForInIntervals argv.intervals "1" with
    | none => (redis, none)
    | some redis =>
      if argv.type = "0" then
        match SETEX now redis argv.keyForSaveVerifyCodes argv.effectiveTime argv.verifyCode with
        | none => (redis, none)
        | some redis => (redis, some "0")
      else (redis, some "0")

/-- `RedisLuaExecutor.execute`. -/
def execute (now : ℕ) (redis : Redis) (argv : Argv) : Redis × String :=
  let reply := sendSmsLua now redis argv
  (reply.1, reply.2.getD "9999")

/-! ## The request -/

structure SendSmsRequest where
  phoneNumbers : String
  signName : Option String
  templateCode : Option String
  smsUpExtendCode : Option String
  templateParam : Option String
  outId : Option String
  deriving DecidableEq, Repr

abbrev QueryParameters := List (String × Option String)

namespace SendSmsRequest

def checkQueryParameters (request : SendSmsRequest) : Bool :=
  !isBlank (some request.phoneNumbers) && !isBlank request.signName && !isBlank request.templateCode

def buildQueryParameters (request : SendSmsRequest) : QueryParameters :=
  [("PhoneNumbers", some request.phoneNumbers), ("SignName", request.signName),
    ("TemplateCode", request.templateCode)] ++
  (if isBlank request.outId then [] else [("OutId", request.outId)]) ++
  (if isBlank request.smsUpExtendCode then [] else [("SmsUpExtendCode", request.smsUpExtendCode)]) ++
  (if isBlank request.templateParam then [] else [("TemplateParam", request.templateParam)])

end SendSmsRequest

/-! ## `sendSms` -/

/-- What a call still asks for, going on with the answer. -/
inductive Sending where
  | execute (argv : Argv) (next : String → Sending)
  | getResponse (request : SendSmsRequest) (next : Option SendSmsResponse → Sending)
  | ended (result : Except Thrown (Option String))

def Sending.business (error : AliceError) : Sending := .ended (.error (.business error))

open Sending (business)

/-- `StringUtils.substringBetween` with the marks of a field of a template. -/
def substringBetween : List Char → Option (List Char)
  | '$' :: '\x7b' :: rest =>
    if '\x7d' ∈ rest then some (rest.takeWhile (· ≠ '\x7d')) else none
  | _ :: rest => substringBetween rest
  | [] => none

def isCode (template : SmsTemplatePO) : Bool := template.templateType = ._0

def getCode (outside : Outside) (vo : SendSmsVO) (template : SmsTemplatePO) :
    Except Thrown (Option String) :=
  if ¬ isCode template then .ok none
  else
    let codeField := (substringBetween template.templateContent.toList).map String.ofList
    match outside.parseObject vo.templateParam with
    | .error e => .error e
    | .ok none => .error .nullPointer
    | .ok (some json) =>
      if ¬ json.containsKey codeField ∨ isBlank (json.getString codeField) then
        .error (.business .NOT_HAVE_CODE)
      else .ok (json.getString codeField)

/-- A null argument reaches the script as the empty text. -/
def argvOf (vo : SendSmsVO) (template : SmsTemplatePO) (code : Option String)
    (phoneNumber : String) : Except Thrown Argv :=
  match vo.timeUnit, vo.effectiveTime, vo.intervals with
  | some timeUnit, some effectiveTime, some intervals =>
    .ok { phoneNumber
          templateCode := vo.templateCode.getD ""
          signName := vo.signName.getD ""
          effectiveTime := timeUnit.toSeconds effectiveTime
          intervals := timeUnit.toSeconds intervals
          type := toString template.templateType.value
          verifyCode := code.getD "" }
  | _, _, _ => .error .nullPointer

def requestOf (vo : SendSmsVO) (willSend : List String) : SendSmsRequest where
  phoneNumbers := ",".intercalate willSend
  signName := vo.signName
  templateCode := vo.templateCode
  smsUpExtendCode := vo.smsUpExtendCode
  templateParam := vo.templateParam
  outId := vo.outId

def answer : Option SendSmsResponse → Sending
  | none => business .REQUEST_EXCEPTION
  | some response =>
    if response.code ≠ some "OK" then business .REQUEST_FAIL else .ended (.ok response.bizId)

/-- The loop over the phone numbers, and what comes after it. -/
def sendAll (vo : SendSmsVO) (template : SmsTemplatePO) (code : Option String) :
    List String → List String → Sending
  | [], willSend => .getResponse (requestOf vo willSend) answer
  | phoneNumber :: rest, willSend =>
    match argvOf vo template code phoneNumber with
    | .error e => .ended (.error e)
    | .ok argv =>
      .execute argv fun result =>
        if isCode template ∧ result = "1" then business .SEND_FREQUENTLY
        else if result = "0" then sendAll vo template code rest (willSend ++ [phoneNumber])
        else sendAll vo template code rest willSend

def sendSms (outside : Outside) (vo : SendSmsVO) : Sending :=
  if ¬ outside.existsBySignName vo.signName then business .SIGN_NOT_EXISTED
  else
    match outside.findByTemplateCode vo.templateCode with
    | none => business .TEMPLATE_NOT_EXISTED
    | some template =>
      match vo.phoneNumbers with
      | none => .ended (.error .nullPointer)
      | some phoneNumbers =>
        if isCode template ∧ (splitComma phoneNumbers).length > 1 then
          business .CODE_ALWAYS_SINGLE
        else
          match getCode outside vo template with
          | .error e => .ended (.error e)
          | .ok code => sendAll vo template code (splitComma phoneNumbers) []

/-! ## Calls side by side -/

structure Acceptance (ι : Type*) where
  call : ι
  argv : Argv
  time : ℕ

/-- The clock, the keys and the calls, with what was accepted, which requests were made of the
gateway and which of them it was sent so far. -/
structure World (ι : Type*) where
  now : ℕ
  redis : Redis
  calls : ι → Sending
  accepted : List (Acceptance ι)
  handed : List (ι × SendSmsRequest)
  sent : List (ι × QueryParameters)

inductive Event (ι : Type*) where
  | wait (millis : ℕ)
  | expire (key : String)
  /-- The call gets what it asks for; the response is the one to a request that is sent. -/
  | turn (call : ι) (response : Option SendSmsResponse)

namespace World

variable {ι : Type*} [DecidableEq ι] (w : World ι)

/-- All calls at their start. -/
def start (outside : ι → Outside) (vo : ι → SendSmsVO) (now : ℕ) (redis : Redis) : World ι where
  now := now
  redis := redis
  calls i := sendSms (outside i) (vo i)
  accepted := []
  handed := []
  sent := []

def runScript (i : ι) (argv : Argv) (next : String → Sending) : World ι :=
  let reply := execute w.now w.redis argv
  { w with
    redis := reply.1
    calls := Function.update w.calls i (next reply.2)
    accepted :=
      if reply.2 = "0" then w.accepted ++ [{ call := i, argv, time := w.now }] else w.accepted }

/-- A request without the required parameters is not sent, and has no response. -/
def runRequest (i : ι) (request : SendSmsRequest) (next : Option SendSmsResponse → Sending)
    (response : Option SendSmsResponse) : World ι :=
  let sends := request.checkQueryParameters
  { w with
    calls := Function.update w.calls i (next (if sends then response else none))
    handed := w.handed ++ [(i, request)]
    sent := if sends then w.sent ++ [(i, request.buildQueryParameters)] else w.sent }

def turn (i : ι) (response : Option SendSmsResponse) : World ι :=
  match w.calls i with
  | .execute argv next => w.runScript i argv next
  | .getResponse request next => w.runRequest i request next response
  | .ended _ => w

def step : Event ι → World ι
  | .wait millis => { w with now := w.now + millis }
  | .expire key => { w with redis := w.redis.expire w.now key }
  | .turn i response => w.turn i response

/-- The occurrences of phone numbers that the script accepted for the call, in order. -/
def acceptedBy (i : ι) : List String :=
  (w.accepted.filter fun a => a.call = i).map (·.argv.phoneNumber)

def handedBy (i : ι) : List SendSmsRequest := (w.handed.filter fun p => p.1 = i).map Prod.snd

def sentBy (i : ι) : List QueryParameters := (w.sent.filter fun p => p.1 = i).map Prod.snd

end World

end BigPlan.Sms
