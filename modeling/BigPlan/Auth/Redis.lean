import BigPlan.Auth.AccessCard

/-!
# What the authorization server keeps in Redis

One map for each family of keys, from what follows its prefix. A key can be deleted
by its full name, as clients may do with what they send as their old refresh token,
and each entry has a lifetime, so it may go at any time.
-/
namespace BigPlan.Auth

open Lib.Java

def REFRESH_TOKEN_PREFIX : String := "refreshToken:"
def SCOPE_CACHE_PREFIX : String := "scopeCache:"
def CODE_CACHE_PREFIX : String := "codeCache:"

/-- The keys of the entities `AuthorizeInfoEntity` and `IdTokenEntity`. -/
def AUTHORIZE_INFO_PREFIX : String := "tb_authorize_info:"
def ID_TOKEN_PREFIX : String := "tb_id_token:"

structure CodeCacheInfoDTO where
  userId : JLong
  username : String
  customerInfo : CustomerInfo
  deriving DecidableEq, Repr

structure RefreshTokenDTO where
  userId : JLong
  accessToken : String
  deriving DecidableEq, Repr

/-- The scopes are joined by commas. -/
structure AuthorizeInfoEntity where
  scopes : String
  customerInfo : Option CustomerInfo
  deriving DecidableEq, Repr

structure Redis where
  codeCache : String → Option CodeCacheInfoDTO := fun _ => none
  scopeCache : String → Option (List String) := fun _ => none
  refreshToken : String → Option RefreshTokenDTO := fun _ => none
  authorizeInfo : String → Option AuthorizeInfoEntity := fun _ => none
  idToken : String → Option String := fun _ => none

/-- What a step reads off the clock and the random generator. -/
structure Draw where
  currentTimeMillis : JLong
  /-- `UUID.randomUUID().toString().replace("-", "")`. -/
  uuid : String
  deriving DecidableEq, Repr

/-- `String.valueOf` of a `Long`. -/
def longToString (n : JLong) : String := toString n.toInt

namespace Redis

/-- The command `DEL` with a full key. -/
def delete (r : Redis) (key : String) : Redis where
  codeCache k := if CODE_CACHE_PREFIX ++ k = key then none else r.codeCache k
  scopeCache k := if SCOPE_CACHE_PREFIX ++ k = key then none else r.scopeCache k
  refreshToken k := if REFRESH_TOKEN_PREFIX ++ k = key then none else r.refreshToken k
  authorizeInfo k := if AUTHORIZE_INFO_PREFIX ++ k = key then none else r.authorizeInfo k
  idToken k := if ID_TOKEN_PREFIX ++ k = key then none else r.idToken k

/-! ## `UUIDCodeStrategy` -/

def generateCode (r : Redis) (uid : JLong) (name : String) (customerInfo : CustomerInfo)
    (draw : Draw) : Redis × String :=
  let info : CodeCacheInfoDTO := { userId := uid, username := name, customerInfo }
  ({ r with codeCache := Function.update r.codeCache draw.uuid (some info) }, draw.uuid)

def getCode (r : Redis) (code : String) : Option CodeCacheInfoDTO := r.codeCache code

def deleteCode (r : Redis) (code : String) : Redis := r.delete (CODE_CACHE_PREFIX ++ code)

/-! ## `RedisScopeManager` -/

def scopeKey (clientId : Option String) (uid : JLong) : String :=
  stringOf clientId ++ ":" ++ longToString uid

/-- Redis refuses a lifetime that is not positive. -/
def saveScopes (r : Redis) (clientId : Option String) (uid timeout : JLong)
    (scopes : List String) : Except Thrown Redis :=
  if timeout.toInt ≤ 0 then .error .redisSystem
  else .ok { r with scopeCache :=
               Function.update r.scopeCache (scopeKey clientId uid) (some scopes) }

theorem saveScopes_ok {r r' : Redis} {clientId : Option String} {uid timeout : JLong}
    {scopes : List String} (h : r.saveScopes clientId uid timeout scopes = .ok r') :
    r' = { r with scopeCache :=
             Function.update r.scopeCache (scopeKey clientId uid) (some scopes) } := by
  unfold saveScopes at h
  split at h
  · cases h
  · exact (Except.ok.inj h).symm

def getScopes (r : Redis) (clientId : Option String) (uid : JLong) : Option (List String) :=
  r.scopeCache (scopeKey clientId uid)

/-! ## `RedisAuthorizeInfoManager.save`, in its two commands -/

def saveAuthorizeInfo (r : Redis) (token : String) (customerInfo : Option CustomerInfo)
    (scopes : List String) : Redis :=
  let entity : AuthorizeInfoEntity := { scopes := String.intercalate "," scopes, customerInfo }
  { r with authorizeInfo := Function.update r.authorizeInfo token (some entity) }

def saveIdToken (r : Redis) (userId : JLong) (token : String) : Redis :=
  { r with idToken := Function.update r.idToken (longToString userId) (some token) }

/-- `setIfAbsent` of a new refresh token. -/
def saveRefreshToken (r : Redis) (token : String) (dto : RefreshTokenDTO) : Redis :=
  { r with refreshToken := fun k =>
      if k = token then (r.refreshToken k).or (some dto) else r.refreshToken k }

/-! ## Codes -/

/-- `r'` has no code that `r` does not have. -/
def NoNewCode (r r' : Redis) : Prop := ∀ code info, r'.codeCache code = some info →
  r.codeCache code = some info

theorem noNewCode_delete (r : Redis) (key : String) : NoNewCode r (r.delete key) := by
  intro code info h
  simp only [delete] at h
  split at h
  · cases h
  · exact h

theorem deleteCode_self (r : Redis) (code : String) : (r.deleteCode code).codeCache code = none :=
  if_pos rfl

end Redis

end BigPlan.Auth
