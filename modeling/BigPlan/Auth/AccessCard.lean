import BigPlan.Lib.Java

/-!
# Access cards in a resource server

`checkAccessCard` puts a card in force from the headers of a request, and the
aspect on protected methods decides by the card in force. The codec of the header
value is a parameter: it yields a card, or throws.
-/
namespace BigPlan.Auth

open Lib.Java

/-- Headers in order; names are compared without case. -/
abbrev Headers := List (String × String)

def sameName (a b : String) : Bool := a.map Char.toLower == b.map Char.toLower

def Headers.getFirst (headers : Headers) (name : String) : Option String :=
  (headers.find? fun h => sameName h.1 name).map Prod.snd

def ACCESS_CARD_HEADER : String := "_access_card"
def TOKEN_HEADER : String := "_token"
def X_FROM_HEADER : String := "_from"
def IS_ENABLED : String := "isEnabled"

/-- What a `CustomerInfo` maps a key to: the aspect tells booleans from the rest. -/
inductive CustomValue where
  | bool (b : Bool)
  | other (text : String)
  deriving DecidableEq, Repr

abbrev CustomerInfo := List (String × CustomValue)

/-- `none` stands for `null` in every field. -/
structure AccessCard where
  userId : Option JLong := none
  username : Option String := none
  customerInfo : Option CustomerInfo := none
  authorities : Option (List String) := none
  clientId : Option String := none
  sign : Option Bool := none
  deriving DecidableEq, Repr

namespace AccessCard

def createEmpty : AccessCard :=
  { customerInfo := some [], authorities := some [], sign := some false }

/-- The card that `checkAccessCard` makes up for a request with a source header. -/
def fromSource (source : String) : AccessCard :=
  { userId := some 0, username := some source, authorities := some [], clientId := some source }

end AccessCard

/-- The errors that the modelled functions throw. -/
inductive SecurityError where
  | LOGIN_FAIL
  | ERROR_CODE
  | CLIENT_ERROR
  | NOT_SUPPORT
  | NEED_REFRESH_TOKEN
  | REFRESH_TOKEN_EXPIRED
  | FORBIDDEN
  | ROLE_EXISTED
  | ROLE_NOT_FOUND
  | USER_NOT_FOUND
  | USER_DISABLED
  | ROLE_PERMISSION_DENY
  | POSITION_PERMISSION_DENY
  deriving DecidableEq, Repr

namespace SecurityError

def code : SecurityError → Nat
  | LOGIN_FAIL => 10403
  | ERROR_CODE => 10503
  | CLIENT_ERROR => 10504
  | NOT_SUPPORT => 10505
  | NEED_REFRESH_TOKEN => 10509
  | REFRESH_TOKEN_EXPIRED => 10510
  | FORBIDDEN => 10513
  | ROLE_EXISTED => 10516
  | ROLE_NOT_FOUND => 10517
  | USER_NOT_FOUND => 10518
  | USER_DISABLED => 10519
  | ROLE_PERMISSION_DENY => 10524
  | POSITION_PERMISSION_DENY => 10525

def error : SecurityError → String
  | LOGIN_FAIL => "username or password wrong"
  | ERROR_CODE => "mode of authorization_code's code invalid"
  | CLIENT_ERROR => "client auth error"
  | NOT_SUPPORT => "not support"
  | NEED_REFRESH_TOKEN => "need refresh token"
  | REFRESH_TOKEN_EXPIRED => "refresh token expired"
  | FORBIDDEN => "forbidden"
  | ROLE_EXISTED => "role existed"
  | ROLE_NOT_FOUND => "role not found"
  | USER_NOT_FOUND => "user not found"
  | USER_DISABLED => "user is disabled"
  | ROLE_PERMISSION_DENY => "role permission deny"
  | POSITION_PERMISSION_DENY => "position permission deny"

end SecurityError

inductive Thrown where
  | security (e : SecurityError)
  /-- The exception of `ThrowUtils.throwIfTrue`. -/
  | business (e : SecurityError)
  | illegalArgument
  | illegalState
  | nullPointer
  | classCast
  /-- A row that breaks a constraint of its table. -/
  | dataIntegrityViolation
  /-- A deletion by the id of no row. -/
  | emptyResultDataAccess
  /-- An error reply of Redis. -/
  | redisSystem
  | numberFormat
  | stackOverflow
  deriving DecidableEq, Repr

/-- What a request carries through the filters of a resource server. -/
structure RequestContext where
  applied : Bool := false
  /-- The thread's `AccessCardHolder`. -/
  context : Option AccessCard := none
  /-- The thread's `AccessCardHeaderHolder`. -/
  header : Option String := none
  currentOpMan : Option JLong := none
  deriving DecidableEq, Repr

/-- `none` is an exception of the codec. -/
def checkAccessCard (decodeCard : String → Option AccessCard) (request : Headers)
    (c : RequestContext) : Option RequestContext :=
  if c.applied then some c
  else
    let c : RequestContext := { c with applied := true }
    let encoded := request.getFirst ACCESS_CARD_HEADER
    if isBlank encoded then
      let source := request.getFirst X_FROM_HEADER
      if isBlank source then some c
      else
        let accessCard := AccessCard.fromSource (source.getD "")
        some { c with context := some accessCard, currentOpMan := accessCard.userId }
    else
      match decodeCard (encoded.getD "") with
      | none => none
      | some accessCard =>
        some { c with
          context := some accessCard
          currentOpMan := accessCard.userId
          header := encoded }

/-- `AccessCardHolder.getContext` never returns `null`. -/
def RequestContext.getContext (c : RequestContext) : AccessCard :=
  c.context.getD AccessCard.createEmpty

structure AuthResource where
  scope : String
  name : String
  checkEnabled : Bool := true
  deriving DecidableEq, Repr

/-- `PreAuthResourceAspect.before`; the cache of full scopes is a parameter. -/
def before (checkFullScope : AuthResource → Option String) (authResource : AuthResource)
    (accessCard : AccessCard) : Except Thrown Unit :=
  if accessCard.userId = some 0 then .ok ()
  else
    match accessCard.authorities with
    | none => .error .nullPointer
    | some authorities =>
      if ¬ (checkFullScope authResource).any (authorities.contains ·) then
        .error (.security .FORBIDDEN)
      else
        match accessCard.customerInfo with
        | none => .error .nullPointer
        | some customerInfo =>
          match authResource.checkEnabled, customerInfo.lookup IS_ENABLED with
          | true, some (.bool false) => .error (.security .USER_DISABLED)
          | true, some (.other _) => .error .classCast
          | _, _ => .ok ()

/-- The card that the headers of a request put in force; `none` if that throws. -/
def cardInForce (decodeCard : String → Option AccessCard) (request : Headers) :
    Option AccessCard :=
  (checkAccessCard decodeCard request {}).map RequestContext.getContext

/-- The aspect lets a call of the resource through. -/
def Admitted (checkFullScope : AuthResource → Option String) (authResource : AuthResource)
    (accessCard : AccessCard) : Prop :=
  before checkFullScope authResource accessCard = .ok ()

instance (checkFullScope : AuthResource → Option String) (authResource : AuthResource)
    (accessCard : AccessCard) : Decidable (Admitted checkFullScope authResource accessCard) := by
  unfold Admitted
  infer_instance

theorem Headers.getFirst_append (headers headers' : Headers) (name : String) :
    Headers.getFirst (headers ++ headers') name =
      (headers.getFirst name).or (headers'.getFirst name) := by
  simp only [Headers.getFirst, List.find?_append]
  cases headers.find? fun h => sameName h.1 name <;> rfl

/-- A made-up card has user id 0 and passes every protected method. -/
theorem admitted_fromSource (checkFullScope : AuthResource → Option String)
    (authResource : AuthResource) (source : String) :
    Admitted checkFullScope authResource (AccessCard.fromSource source) := rfl

theorem not_admitted_empty (checkFullScope : AuthResource → Option String)
    (authResource : AuthResource) :
    ¬ Admitted checkFullScope authResource AccessCard.createEmpty := by
  unfold Admitted before AccessCard.createEmpty
  cases checkFullScope authResource <;> simp

section InForce

variable (decodeCard : String → Option AccessCard) {request : Headers}

theorem cardInForce_of_card {encoded : String}
    (h : request.getFirst ACCESS_CARD_HEADER = some encoded) (hb : isBlank (some encoded) = false) :
    cardInForce decodeCard request = decodeCard encoded := by
  simp only [cardInForce, checkAccessCard, h, hb, Bool.false_eq_true, if_false, Option.getD_some]
  cases decodeCard encoded <;> rfl

theorem cardInForce_of_source {source : String}
    (h : isBlank (request.getFirst ACCESS_CARD_HEADER) = true)
    (hs : request.getFirst X_FROM_HEADER = some source) (hb : isBlank (some source) = false) :
    cardInForce decodeCard request = some (AccessCard.fromSource source) := by
  simp [cardInForce, checkAccessCard, h, hs, hb, RequestContext.getContext]

theorem cardInForce_of_none (h : isBlank (request.getFirst ACCESS_CARD_HEADER) = true)
    (hs : isBlank (request.getFirst X_FROM_HEADER) = true) :
    cardInForce decodeCard request = some AccessCard.createEmpty := by
  simp [cardInForce, checkAccessCard, h, hs, RequestContext.getContext]

end InForce

end BigPlan.Auth
