import BigPlan.Auth.CodeExchange
import BigPlan.Lib.Fallible
import BigPlan.Lib.Runs

/-!
# Codes for clients

The endpoints that issue codes, and the exchange of codes, one request after another.
A session is a user with a client that may change. The code is cached with its user,
not with its client; the history records both.
-/
namespace BigPlan.Auth

open Lib.Java Lib.Runs Lib.Fallible

structure UserDetails where
  id : JLong
  username : String
  authorities : List String
  customerInfo : Option CustomerInfo
  /-- The client that the user is authorizing. -/
  clientId : Option String
  deriving DecidableEq, Repr

def UserDetails.getCustomerInfo (u : UserDetails) : CustomerInfo := u.customerInfo.getD []

inductive ResponseType where
  | code
  | token
  deriving DecidableEq, Repr

structure UserAuthorizeDTO where
  scopes : Option String
  redirectUrl : Option String
  deriving DecidableEq, Repr

inductive Reply where
  | redirect (url : Option String)
  | none
  | token (dto : TokenInfoDTO)
  | thrown (e : Thrown)
  deriving DecidableEq, Repr

/-- A code, the client that it was requested for, and what was cached with it. -/
structure Issue where
  code : String
  clientId : Option String
  info : CodeCacheInfoDTO
  deriving DecidableEq, Repr

structure AuthState where
  redis : Redis
  sessions : Nat → Option UserDetails
  issued : List Issue

/-- `authorities.contains(new SimpleGrantedAuthority(scope))`: the constructor refuses blank
text. -/
def hasAuthority (authorities : List String) (scope : String) : Except Thrown Bool :=
  if isBlank (some scope) then .error .illegalArgument else .ok (authorities.contains scope)

namespace AuthState

section Endpoints

variable (server : AuthServer)

def checkAuthorize (client : ClientDetails) (user : UserDetails) (scope : Option String) :
    Except Thrown Bool :=
  match client.getGrantTypes with
  | .error e => .error e
  | .ok grantTypes =>
    if ¬ grantTypes.contains .authorization_code then .ok false
    else if ¬ server.findByUserIdAndClientId user.id client.id then .ok false
    else
      match scope with
      | none => .ok true
      | some scope =>
        if isBlank (some scope) then .ok true
        else if ¬ client.getScopes.contains scope then .ok false
        else .ok (user.authorities.contains scope)

/-- The scopes that are cached without asking the user. -/
def allEnableScope (client : ClientDetails) (user : UserDetails) (scope : Option String) :
    Except Thrown (List String) :=
  if isBlank scope then client.getScopes.filterM (hasAuthority user.authorities)
  else .ok [scope.getD ""]

/-- A code for the user, and the redirection that carries it. -/
def issue (s : AuthState) (clientId : Option String) (user : UserDetails)
    (redirectUrl : Option String) (draw : Draw) : AuthState × Reply :=
  let (redis, code) := s.redis.generateCode user.id user.username user.getCustomerInfo draw
  let info : CodeCacheInfoDTO :=
    { userId := user.id, username := user.username, customerInfo := user.getCustomerInfo }
  ({ s with redis, issued := s.issued ++ [{ code, clientId, info }] },
    .redirect (some (stringOf redirectUrl ++ "?code=" ++ code)))

def authorizeUser (s : AuthState) (client : ClientDetails) (user : UserDetails)
    (clientId redirectUrl scope : Option String) (draw : Draw) : AuthState × Reply :=
  if client.autoGrant then
    match allEnableScope client user scope with
    | .error e => (s, .thrown e)
    | .ok scopes =>
      match s.redis.saveScopes clientId user.id client.refreshTokenTimeout scopes with
      | .error e => (s, .thrown e)
      | .ok redis => issue { s with redis } clientId user redirectUrl draw
  else
    let cacheScopes := (s.redis.getScopes clientId user.id).getD []
    if scope.any (cacheScopes.contains ·) then issue s clientId user redirectUrl draw
    else if isBlank scope then
      (s, .redirect (some ("/oauth/manualAuthorize?type=2&redirectUrl=" ++ stringOf redirectUrl)))
    else
      (s, .redirect (some ("/oauth/manualAuthorize?type=1&scopes=" ++ scope.getD "" ++
        "&redirectUrl=" ++ stringOf redirectUrl)))

def authorize (s : AuthState) (session : Nat) (responseType : Option ResponseType)
    (clientId redirectUrl scope : Option String) (draw : Draw) : AuthState × Reply :=
  match server.findByClientId clientId with
  | none => (s, .redirect redirectUrl)
  | some client =>
    let redirectUrl := if isBlank redirectUrl then client.redirectUrl else redirectUrl
    match responseType with
    | none => (s, .thrown .nullPointer)
    | some .token => (s, .none)
    | some .code =>
      match s.sessions session with
      | none => (s, .redirect redirectUrl)
      | some user =>
        match checkAuthorize server client user scope with
        | .error e => (s, .thrown e)
        | .ok false => (s, .redirect redirectUrl)
        | .ok true =>
          let user := { user with clientId }
          authorizeUser { s with sessions := Function.update s.sessions session (some user) }
            client user clientId redirectUrl scope draw

/-- Some scope is not an authority of the user, or not a scope of the client. -/
def notHasThisPermission (client : ClientDetails) (user : UserDetails)
    (scopeList : List String) : Except Thrown Bool :=
  scopeList.anyM fun scope =>
    (hasAuthority user.authorities scope).map fun has => !has || !client.getScopes.contains scope

def userAuthorize (s : AuthState) (session : Nat) (dto : UserAuthorizeDTO) (draw : Draw) :
    AuthState × Reply :=
  match s.sessions session with
  | none => (s, .redirect (some "login"))
  | some user =>
    match server.findByClientId user.clientId with
    | none => (s, .redirect dto.redirectUrl)
    | some client =>
      match dto.scopes with
      | none => (s, .thrown .nullPointer)
      | some scopes =>
        let scopeList := splitComma scopes
        match notHasThisPermission client user scopeList with
        | .error e => (s, .thrown e)
        | .ok true => (s, .thrown (.business .FORBIDDEN))
        | .ok false =>
          match s.redis.saveScopes user.clientId user.id client.refreshTokenTimeout
            scopeList.dedup with
          | .error e => (s, .thrown e)
          | .ok redis =>
            let redirectUrl :=
              if isBlank dto.redirectUrl then client.redirectUrl else dto.redirectUrl
            issue { s with redis } user.clientId user redirectUrl draw

/-- A request for a token with a code. -/
def exchange (s : AuthState) (request : AuthorizeTokenDTO) (draw : Draw) : AuthState × Reply :=
  match execute server request draw s.redis with
  | (redis, .returned dto) => ({ s with redis }, .token dto)
  | (redis, .thrown e) => ({ s with redis }, .thrown e)
  | (redis, _) => ({ s with redis }, .none)

end Endpoints

end AuthState

inductive AuthRequest where
  | authorize (session : Nat) (responseType : Option ResponseType)
      (clientId redirectUrl scope : Option String) (draw : Draw)
  | userAuthorize (session : Nat) (dto : UserAuthorizeDTO) (draw : Draw)
  | exchange (request : AuthorizeTokenDTO) (draw : Draw)
  | expire (key : String)
  deriving DecidableEq, Repr

namespace AuthState

def step (server : AuthServer) (s : AuthState) : AuthRequest → AuthState
  | .authorize session responseType clientId redirectUrl scope draw =>
    (authorize server s session responseType clientId redirectUrl scope draw).1
  | .userAuthorize session dto draw => (userAuthorize server s session dto draw).1
  | .exchange request draw => (exchange server s request draw).1
  | .expire key => { s with redis := s.redis.delete key }

def start (sessions : Nat → Option UserDetails) : AuthState :=
  { redis := {}, sessions, issued := [] }

end AuthState

/-! ## What an endpoint does -/

/-- Scopes that both the client and the user have. -/
def Grantable (client : ClientDetails) (user : UserDetails) (scopes : List String) : Prop :=
  ∀ scope ∈ scopes, scope ∈ client.getScopes ∧ scope ∈ user.authorities

/-- A store with at most one more entry for the client and the user in the scope cache. -/
inductive Caches (server : AuthServer) (clientId : Option String) (user : UserDetails)
    (r : Redis) : Redis → Prop where
  | same : Caches server clientId user r r
  | scopes {client : ClientDetails} {scopes : List String}
      (found : server.findByClientId clientId = some client)
      (grantable : Grantable client user scopes) :
      Caches server clientId user r { r with
        scopeCache := Function.update r.scopeCache (Redis.scopeKey clientId user.id) (some scopes) }

/-- The users of the sessions are those they were, but for the client of the moment. -/
def SameUsers (sessions sessions' : Nat → Option UserDetails) : Prop :=
  ∀ session user, sessions' session = some user →
    ∃ clientId, sessions session = some { user with clientId }

/-- An endpoint issues one code at most, to the user of a session. -/
inductive Answers (server : AuthServer) (s : AuthState) : AuthState → Prop where
  | nothing {sessions : Nat → Option UserDetails} (users : SameUsers s.sessions sessions) :
      Answers server s { s with sessions }
  | issue {sessions : Nat → Option UserDetails} {redis : Redis} {session : Nat}
      {user : UserDetails} {clientId : Option String} (users : SameUsers s.sessions sessions)
      (found : sessions session = some user) (caches : Caches server clientId user s.redis redis)
      (redirectUrl : Option String) (draw : Draw) :
      Answers server s
        (AuthState.issue { s with sessions, redis } clientId user redirectUrl draw).1

section Cases

variable {server : AuthServer} {client : ClientDetails} {user : UserDetails}

theorem hasAuthority_true {authorities : List String} {scope : String}
    (h : hasAuthority authorities scope = .ok true) : scope ∈ authorities := by
  unfold hasAuthority at h
  split at h
  · cases h
  · simpa using h

theorem checkAuthorize_true {scope : String}
    (h : AuthState.checkAuthorize server client user (some scope) = .ok true)
    (hblank : isBlank (some scope) = false) :
    scope ∈ client.getScopes ∧ scope ∈ user.authorities := by
  unfold AuthState.checkAuthorize at h
  simp only [hblank] at h
  split at h
  · cases h
  · split at h
    · cases h
    · split at h
      · cases h
      · rw [if_neg Bool.false_ne_true] at h
        split at h
        · cases h
        · rename_i hscope
          exact ⟨by simpa using hscope, by simpa using h⟩

/-- The scopes that are cached without asking passed the checks. -/
theorem grantable_allEnableScope {scope : Option String} {scopes : List String}
    (hcheck : AuthState.checkAuthorize server client user scope = .ok true)
    (h : AuthState.allEnableScope client user scope = .ok scopes) :
    Grantable client user scopes := by
  intro x hx
  unfold AuthState.allEnableScope at h
  split at h
  · obtain ⟨hmem, hauth⟩ := mem_filterM h hx
    exact ⟨hmem, hasAuthority_true hauth⟩
  · rename_i hblank
    cases h
    rw [List.mem_singleton.mp hx]
    cases scope with
    | none => simp at hblank
    | some scope => exact checkAuthorize_true hcheck (by simpa using hblank)

/-- The scopes that the user chose passed the checks. -/
theorem grantable_scopeList {scopeList : List String}
    (h : AuthState.notHasThisPermission client user scopeList = .ok false) :
    Grantable client user scopeList.dedup := by
  intro x hx
  have hfalse := anyM_false h (List.mem_dedup.mp hx)
  cases hauth : hasAuthority user.authorities x with
  | error e => simp [hauth, Except.map] at hfalse
  | ok b =>
    simp only [hauth, Except.map, Except.ok.injEq, Bool.or_eq_false_iff, Bool.not_eq_false'] at hfalse
    rw [hfalse.1] at hauth
    exact ⟨by simpa using hfalse.2, hasAuthority_true hauth⟩

variable (s : AuthState)

theorem sameUsers_refl (sessions : Nat → Option UserDetails) : SameUsers sessions sessions :=
  fun _ user h => ⟨user.clientId, h⟩

/-- A session changes its client. -/
theorem sameUsers_update {session : Nat} (h : s.sessions session = some user)
    (clientId : Option String) :
    SameUsers s.sessions (Function.update s.sessions session (some { user with clientId })) := by
  intro session' user' h'
  by_cases hsession : session' = session
  · subst hsession
    rw [Function.update_self, Option.some.injEq] at h'
    exact ⟨user.clientId, by rw [h, ← h']⟩
  · rw [Function.update_of_ne hsession] at h'
    exact ⟨user'.clientId, h'⟩

theorem answers_authorize (session : Nat) (responseType : Option ResponseType)
    (clientId redirectUrl scope : Option String) (draw : Draw) :
    Answers server s
      (AuthState.authorize server s session responseType clientId redirectUrl scope draw).1 := by
  have hnothing : Answers server s s := .nothing (sameUsers_refl s.sessions)
  unfold AuthState.authorize
  cases hclient : server.findByClientId clientId with
  | none => exact hnothing
  | some client =>
    cases responseType with
    | none => exact hnothing
    | some responseType =>
      cases responseType with
      | token => exact hnothing
      | code =>
        cases huser : s.sessions session with
        | none => exact hnothing
        | some user =>
          dsimp only
          split
          · exact hnothing
          · exact hnothing
          · rename_i hcheck
            have husers := sameUsers_update s huser clientId
            have hfound : Function.update s.sessions session (some { user with clientId }) session =
                some { user with clientId } := Function.update_self ..
            unfold AuthState.authorizeUser
            split
            · split
              · exact .nothing husers
              · rename_i scopes hscopes
                split
                · exact .nothing husers
                · rename_i redis hsave
                  rw [Redis.saveScopes_ok hsave]
                  exact .issue husers hfound
                    (.scopes hclient (grantable_allEnableScope hcheck hscopes)) _ draw
            · dsimp only
              split
              · exact .issue husers hfound .same _ draw
              · split <;> exact .nothing husers

theorem answers_userAuthorize (session : Nat) (dto : UserAuthorizeDTO) (draw : Draw) :
    Answers server s (AuthState.userAuthorize server s session dto draw).1 := by
  have hnothing : Answers server s s := .nothing (sameUsers_refl s.sessions)
  unfold AuthState.userAuthorize
  cases huser : s.sessions session with
  | none => exact hnothing
  | some user =>
    cases hclient : server.findByClientId user.clientId with
    | none => simp only [hclient]; exact hnothing
    | some client =>
      simp only [hclient]
      cases dto.scopes with
      | none => exact hnothing
      | some scopes =>
        dsimp only
        split
        · exact hnothing
        · exact hnothing
        · rename_i hpermission
          split
          · exact hnothing
          · rename_i redis hsave
            rw [Redis.saveScopes_ok hsave]
            exact .issue (sameUsers_refl s.sessions) huser
              (.scopes hclient (grantable_scopeList hpermission)) _ draw

end Cases

end BigPlan.Auth
