import BigPlan.Auth.AccessCard
import BigPlan.Gateway.SignChecker
import BigPlan.Lib.Runs

/-!
# The security filter

One exchange as a machine. The token checker answers once, the buffers of the body
arrive while the callback reads, and the sink keeps its first signal: signalling an
error does not leave the callback. Forwarding is the call of `chain.filter`.
-/
namespace BigPlan.Gateway

open Lib.Java Lib.Runs Auth

/-- What the filter calls besides the token checker. -/
structure Services extends SignServices where
  /-- `bean2Byte` and Base64; `none` for a card that cannot be written. -/
  encodeCard : AccessCard → Option String
  /-- `JSON.parseObject`; the outer `none` is an exception, the inner one `null`. -/
  parseObject : String → Option (Option JSONObject)

structure Request where
  headers : Headers
  /-- The buffers in which the body arrives. -/
  body : List (List UInt8)

def Request.token (request : Request) : Option String := request.headers.getFirst TOKEN_HEADER

inductive CheckResult where
  | success (accessCard : Option AccessCard)
  | failure
  deriving DecidableEq, Repr

inductive FilterError where
  | checkFailure
  | illegalAccessError (message : String)
  | exception
  deriving DecidableEq, Repr

inductive Signal where
  | success
  | error (e : FilterError)
  deriving DecidableEq, Repr

inductive Phase where
  /-- Without a token the filter returns the chain's own `Mono`. -/
  | direct
  | checking
  /-- The callback has subscribed to the body. -/
  | reading (clientId : Option String)
  | returned
  | thrown
  deriving DecidableEq, Repr

structure Exchange where
  headers : Headers
  arriving : List (List UInt8)
  sb : String := ""
  phase : Phase := .checking
  /-- The callback runs inside `Mono.create`, which turns its exceptions into errors. -/
  inline : Bool := false
  signal : Option Signal := none
  /-- The headers with which the chain was called. -/
  forwarded : Option Headers := none
  checked : Option CheckResult := none
  /-- The body that `checkSign` was called with, and its answer. -/
  signChecked : Option (String × Bool) := none
  deriving DecidableEq, Repr

namespace Exchange

/-- A sink ignores all but its first signal. -/
def emit (x : Exchange) (signal : Signal) : Exchange :=
  { x with signal := x.signal.or (some signal) }

def forward (x : Exchange) : Exchange :=
  { x with forwarded := some x.headers, phase := .returned }

def throwing (x : Exchange) : Exchange :=
  { if x.inline then x.emit (.error .exception) else x with phase := .thrown }

end Exchange

def filter (request : Request) : Exchange :=
  let x : Exchange := { headers := request.headers, arriving := request.body }
  if isBlank request.token then { x.forward with phase := .direct } else x

inductive Event where
  | checked (inline : Bool) (result : CheckResult)
  | buffer
  /-- The callback goes on from `sb.toString()`. -/
  | bodyRead
  | chainFinally
  deriving DecidableEq, Repr

/-- The header that the filter adds for a card. -/
def cardHeader (services : Services) (accessCard : AccessCard) : Headers :=
  match services.encodeCard accessCard with
  | some value => [(ACCESS_CARD_HEADER, value)]
  | none => []

def onSuccess (services : Services) (x : Exchange) : Option AccessCard → Exchange
  | none => x.forward
  | some accessCard =>
    let x := { x with headers := x.headers ++ cardHeader services accessCard }
    match accessCard.sign with
    | none => x.throwing
    | some false => x.forward
    | some true => { x with phase := .reading accessCard.clientId }

/-- `signChecker.checkSign(JSON.parseObject(body), clientId)`. -/
def verify (services : Services) (body : String) (clientId : Option String) : Option Bool :=
  (services.parseObject body).bind fun o => checkSign services.toSignServices o clientId

def onBody (services : Services) (x : Exchange) (clientId : Option String) : Exchange :=
  if isBlank (some x.sb) then x.forward
  else
    match verify services x.sb clientId with
    | none => x.throwing
    | some valid =>
      let x := { x with signChecked := some (x.sb, valid) }
      -- the error does not end the callback
      let x := if ¬ valid then x.emit (.error (.illegalAccessError "sign error")) else x
      x.forward

def step (services : Services) (x : Exchange) : Event → Exchange
  | .checked inline result =>
    match x.phase with
    | .checking =>
      let x := { x with inline, checked := some result }
      match result with
      | .success accessCard => onSuccess services x accessCard
      | .failure => { x.emit (.error .checkFailure) with phase := .returned }
    | _ => x
  | .buffer =>
    -- a later buffer goes to a builder that is not read again
    match x.phase, x.arriving with
    | .reading _, bytes :: arriving => { x with sb := x.sb ++ newString bytes, arriving }
    | _, _ => x
  | .bodyRead =>
    match x.phase with
    | .reading clientId => onBody services x clientId
    | _ => x
  | .chainFinally =>
    match x.phase with
    | .returned => if x.forwarded.isSome then x.emit .success else x
    | _ => x

end BigPlan.Gateway
