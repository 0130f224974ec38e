import Mathlib.Data.List.Dedup
import Mathlib.Data.List.DropRight
import BigPlan.Auth.Redis

/-!
# The exchange of an authorization code

`AuthorizationCodeGenerateTokenLogic`, one Redis command at a time: the code is read
first and deleted last. Run to its end without interruption, the same steps are
`execute`.
-/
namespace BigPlan.Auth

open Lib.Java

inductive GrantType where
  | authorization_code
  | implicit
  | password
  | client_credentials
  | refresh_token
  deriving DecidableEq, Repr

/-- `GrantType.valueOf`; `none` is an exception. -/
def GrantType.valueOf : String → Option GrantType
  | "authorization_code" => some .authorization_code
  | "implicit" => some .implicit
  | "password" => some .password
  | "client_credentials" => some .client_credentials
  | "refresh_token" => some .refresh_token
  | _ => none

/-- `s.split(",")`: trailing empty strings are dropped if there is a comma at all. -/
def splitComma (s : String) : List String :=
  match (s.toList.splitOn ',').map String.ofList with
  | [part] => [part]
  | parts => parts.rdropWhile (· == "")

structure ClientDetails where
  id : JLong
  clientId : String
  secret : String
  grantTypes : Option String
  scopes : Option String
  redirectUrl : Option String
  timeout : JLong
  refreshTokenTimeout : JLong
  autoGrant : Bool
  privateKey : Option String
  deriving DecidableEq, Repr

namespace ClientDetails

def getGrantTypes (c : ClientDetails) : Except Thrown (List GrantType) :=
  if isBlank c.grantTypes then .ok []
  else
    match (splitComma (c.grantTypes.getD "")).mapM GrantType.valueOf with
    | some grantTypes => .ok grantTypes
    | none => .error .illegalArgument

def getScopes (c : ClientDetails) : List String :=
  if isBlank c.scopes then [] else (splitComma (c.scopes.getD "")).dedup

end ClientDetails

/-- The fields that an exchange of a code reads. -/
structure AuthorizeTokenDTO where
  grantType : GrantType
  clientId : Option String
  clientSecret : Option String
  code : Option String
  refreshToken : Option String
  deriving DecidableEq, Repr

structure TokenInfoDTO where
  accessToken : String
  refreshToken : Option String
  expiresIn : JLong
  deriving DecidableEq, Repr

/-- The content of an access token. -/
structure Certification where
  id : JLong
  name : Option String
  clientId : Option String
  sign : Bool
  deriving DecidableEq, Repr

/-- What the server has besides Redis: its clients with their users, the password encoder,
and the generator of tokens from a content and an expiration. -/
structure AuthServer where
  findByClientId : Option String → Option ClientDetails
  /-- There is a relation of the user and the client, by their ids. -/
  findByUserIdAndClientId : JLong → JLong → Bool
  passwordMatches : Option String → String → Bool
  generateToken : Certification → JLong → String

/-- How far an exchange has come, with what the rest of it needs. -/
inductive Exchange where
  | requested
  | codeRead (client : ClientDetails) (info : CodeCacheInfoDTO)
  | scopesLoaded (client : ClientDetails) (info : CodeCacheInfoDTO) (token : String)
      (scopes : List String)
  | infoSaved (client : ClientDetails) (info : CodeCacheInfoDTO) (token : String)
  | idSaved (client : ClientDetails) (info : CodeCacheInfoDTO) (token : String)
  | refreshDeleted (client : ClientDetails) (info : CodeCacheInfoDTO) (token : String)
      (newRefreshToken : String)
  | refreshSaved (dto : TokenInfoDTO)
  | returned (dto : TokenInfoDTO)
  | thrown (e : Thrown)
  deriving DecidableEq, Repr

section Steps

variable (server : AuthServer) (request : AuthorizeTokenDTO)

/-- The checks of `execute`, `preCheck` and `doLogic` before the first command. -/
def checkClient : Except Thrown (ClientDetails × String) :=
  match server.findByClientId request.clientId with
  | none => .error (.business .CLIENT_ERROR)
  | some client =>
    match client.getGrantTypes with
    | .error e => .error e
    | .ok grantTypes =>
      if ¬ grantTypes.contains request.grantType then .error (.business .CLIENT_ERROR)
      else if isBlank request.code then .error (.business .ERROR_CODE)
      else if ¬ server.passwordMatches request.clientSecret client.secret then
        .error (.business .CLIENT_ERROR)
      else .ok (client, request.code.getD "")

def buildCertification (client : ClientDetails) (info : CodeCacheInfoDTO) : Certification :=
  { id := info.userId, name := some info.username, clientId := request.clientId
    sign := !isBlank client.privateKey }

def loadAuthorizedScope (r : Redis) (clientId : Option String) (userId : JLong) : List String :=
  (r.getScopes clientId userId).getD []

/-- `setIfAbsent` of the new refresh token, with the answer to the client. -/
def saveNewRefresh (r : Redis) (client : ClientDetails) (info : CodeCacheInfoDTO)
    (token newRefreshToken : String) : Redis × Exchange :=
  (r.saveRefreshToken newRefreshToken { userId := info.userId, accessToken := token },
    .refreshSaved { accessToken := token, refreshToken := some newRefreshToken
                    expiresIn := client.timeout })

def deleteAndReturn (r : Redis) (dto : TokenInfoDTO) : Redis × Exchange :=
  (r.deleteCode (request.code.getD ""), .returned dto)

/-- The next command of an exchange. -/
def advance (draw : Draw) (r : Redis) : Exchange → Redis × Exchange
  | .requested =>
    match checkClient server request with
    | .error e => (r, .thrown e)
    | .ok (client, code) =>
      match r.getCode code with
      | none => (r, .thrown (.business .ERROR_CODE))
      | some info => (r, .codeRead client info)
  | .codeRead client info =>
    let token := server.generateToken (buildCertification request client info)
      (draw.currentTimeMillis + client.timeout)
    (r, .scopesLoaded client info token (loadAuthorizedScope r request.clientId info.userId))
  | .scopesLoaded client info token scopes =>
    (r.saveAuthorizeInfo token (some info.customerInfo) scopes, .infoSaved client info token)
  | .infoSaved client info token =>
    (r.saveIdToken info.userId token, .idSaved client info token)
  | .idSaved client info token =>
    match client.getGrantTypes with
    | .error e => (r, .thrown e)
    | .ok grantTypes =>
      if grantTypes.contains .refresh_token ∧ client.refreshTokenTimeout.toInt > 0 then
        if isBlank request.refreshToken then saveNewRefresh r client info token draw.uuid
        -- the old token is deleted under its bare name, without the prefix
        else (r.delete (request.refreshToken.getD ""), .refreshDeleted client info token draw.uuid)
      else
        deleteAndReturn request r
          { accessToken := token, refreshToken := none, expiresIn := client.timeout }
  | .refreshDeleted client info token newRefreshToken =>
    saveNewRefresh r client info token newRefreshToken
  | .refreshSaved dto => deleteAndReturn request r dto
  | .returned dto => (r, .returned dto)
  | .thrown e => (r, .thrown e)

def executeStep (draw : Draw) (p : Redis × Exchange) : Redis × Exchange :=
  advance server request draw p.1 p.2

/-- All commands in a row. -/
def execute (draw : Draw) (r : Redis) : Redis × Exchange :=
  (executeStep server request draw)^[7] (r, .requested)

end Steps

/-! ## What one command does -/

section Command

variable (server : AuthServer) (request : AuthorizeTokenDTO) (draw : Draw) (r : Redis)

variable {server request} in
theorem checkClient_ok {client : ClientDetails} {code : String}
    (h : checkClient server request = .ok (client, code)) :
    server.findByClientId request.clientId = some client ∧
      server.passwordMatches request.clientSecret client.secret = true ∧
      request.code = some code := by
  unfold checkClient at h
  split at h
  · cases h
  · rename_i c hfind
    split at h
    · cases h
    · split at h
      · cases h
      · split at h
        · cases h
        · rename_i hblank
          split at h
          · cases h
          · rename_i hmatches
            simp only [Except.ok.injEq, Prod.mk.injEq] at h
            obtain ⟨rfl, rfl⟩ := h
            refine ⟨hfind, by simpa using hmatches, ?_⟩
            cases hcode : request.code with
            | none => simp [hcode] at hblank
            | some code => rfl

/-- The first command reads the code, and leaves everything as it is. -/
theorem advance_requested :
    (∃ e, advance server request draw r .requested = (r, .thrown e)) ∨
      ∃ client code info, checkClient server request = .ok (client, code) ∧
        r.getCode code = some info ∧
        advance server request draw r .requested = (r, .codeRead client info) := by
  cases hcheck : checkClient server request with
  | error e => exact .inl ⟨e, by simp only [advance, hcheck]⟩
  | ok checked =>
    obtain ⟨client, code⟩ := checked
    cases hcode : r.getCode code with
    | none => exact .inl ⟨.business .ERROR_CODE, by simp only [advance, hcheck, hcode]⟩
    | some info => exact .inr ⟨client, code, info, rfl, hcode, by simp only [advance, hcheck, hcode]⟩

/-- With the access token saved, an exchange goes on to its refresh token or to its end. -/
theorem advance_idSaved (client : ClientDetails) (info : CodeCacheInfoDTO) (token : String) :
    (∃ e, advance server request draw r (.idSaved client info token) = (r, .thrown e)) ∨
      advance server request draw r (.idSaved client info token) =
        saveNewRefresh r client info token draw.uuid ∨
      advance server request draw r (.idSaved client info token) =
        (r.delete (request.refreshToken.getD ""), .refreshDeleted client info token draw.uuid) ∨
      advance server request draw r (.idSaved client info token) = deleteAndReturn request r
        { accessToken := token, refreshToken := none, expiresIn := client.timeout } := by
  cases hgrant : client.getGrantTypes with
  | error e => exact .inl ⟨e, by simp only [advance, hgrant]⟩
  | ok grantTypes =>
    simp only [advance, hgrant]
    split
    · split
      · exact .inr (.inl rfl)
      · exact .inr (.inr (.inl rfl))
    · exact .inr (.inr (.inr rfl))

/-- Exchanges only take codes away. -/
theorem noNewCode_advance (e : Exchange) :
    r.NoNewCode (advance server request draw r e).1 := by
  have hrefl : r.NoNewCode r := fun _ _ h => h
  cases e with
  | requested =>
    rcases advance_requested server request draw r with
      ⟨_, h⟩ | ⟨_, _, _, _, _, h⟩
    · rw [h]
      exact hrefl
    · rw [h]
      exact hrefl
  | idSaved client info token =>
    rcases advance_idSaved server request draw r client info token with
      ⟨_, h⟩ | h | h | h
    · rw [h]
      exact hrefl
    · rw [h]
      exact hrefl
    · rw [h]
      exact Redis.noNewCode_delete r _
    · rw [h]
      exact Redis.noNewCode_delete r _
  | refreshSaved dto => exact Redis.noNewCode_delete r _
  | codeRead | scopesLoaded | infoSaved | refreshDeleted | returned | thrown => exact hrefl

/-- The access token that an exchange has generated. -/
def Exchange.token : Exchange → Option String
  | .requested | .codeRead .. | .thrown _ => none
  | .scopesLoaded _ _ token _ | .infoSaved _ _ token | .idSaved _ _ token
  | .refreshDeleted _ _ token _ => some token
  | .refreshSaved dto | .returned dto => some dto.accessToken

theorem token_advance {e : Exchange} {token : String} (h : e.token = some token) :
    (advance server request draw r e).2.token = some token ∨
      ∃ t, (advance server request draw r e).2 = .thrown t := by
  cases e with
  | requested | codeRead | thrown => cases h
  | idSaved client info t =>
    rcases advance_idSaved server request draw r client info t with
      ⟨e, heq⟩ | heq | heq | heq
    · exact .inr ⟨e, by rw [heq]⟩
    · rw [heq]
      exact .inl h
    · rw [heq]
      exact .inl h
    · rw [heq]
      exact .inl h
  | scopesLoaded | infoSaved | refreshDeleted | refreshSaved | returned => exact .inl h

/-- How many commands an exchange may still take. -/
def Exchange.remaining : Exchange → Nat
  | .requested => 7
  | .codeRead .. => 6
  | .scopesLoaded .. => 5
  | .infoSaved .. => 4
  | .idSaved .. => 3
  | .refreshDeleted .. => 2
  | .refreshSaved .. => 1
  | .returned _ | .thrown _ => 0

theorem remaining_advance (e : Exchange) :
    (advance server request draw r e).2.remaining ≤ e.remaining - 1 := by
  cases e with
  | requested =>
    rcases advance_requested server request draw r with
      ⟨_, h⟩ | ⟨_, _, _, _, _, h⟩
    · rw [h]
      exact Nat.zero_le _
    · rw [h]
      exact Nat.le_refl _
  | idSaved client info token =>
    rcases advance_idSaved server request draw r client info token with
      ⟨_, h⟩ | h | h | h
    · rw [h]
      exact Nat.zero_le _
    · rw [h]
      exact Nat.le_succ _
    · rw [h]
      exact Nat.le_refl _
    · rw [h]
      exact Nat.zero_le _
  | codeRead | scopesLoaded | infoSaved | refreshDeleted | refreshSaved | returned | thrown =>
    exact Nat.le_refl _

theorem remaining_iterate (k : Nat) (p : Redis × Exchange) :
    ((executeStep server request draw)^[k] p).2.remaining ≤ p.2.remaining - k := by
  induction k with
  | zero => exact Nat.le_refl _
  | succ k ih =>
    rw [Function.iterate_succ_apply']
    have := remaining_advance server request draw ((executeStep server request draw)^[k] p).1
      ((executeStep server request draw)^[k] p).2
    unfold executeStep at this ih ⊢
    omega

/-- Seven commands are enough for an exchange to return or to fail. -/
theorem execute_ends :
    (∃ dto, (execute server request draw r).2 = .returned dto) ∨
      ∃ e, (execute server request draw r).2 = .thrown e := by
  have h := remaining_iterate server request draw 7 (r, .requested)
  have h0 : (execute server request draw r).2.remaining = 0 := Nat.eq_zero_of_le_zero h
  cases hexec : (execute server request draw r).2 with
  | returned dto => exact .inl ⟨dto, rfl⟩
  | thrown e => exact .inr ⟨e, rfl⟩
  | requested | codeRead | scopesLoaded | infoSaved | idSaved | refreshDeleted | refreshSaved =>
    rw [hexec] at h0
    cases h0

theorem noNewCode_iterate (k : Nat) (p : Redis × Exchange) :
    p.1.NoNewCode ((executeStep server request draw)^[k] p).1 := by
  induction k with
  | zero => exact fun _ _ h => h
  | succ k ih =>
    intro code info h
    rw [Function.iterate_succ_apply'] at h
    exact ih code info (noNewCode_advance _ _ _ _ _ code info h)

theorem token_iterate {token : String} (k : Nat) {p : Redis × Exchange}
    (h : p.2.token = some token) :
    ((executeStep server request draw)^[k] p).2.token = some token ∨
      ∃ e, ((executeStep server request draw)^[k] p).2 = .thrown e := by
  induction k with
  | zero => exact .inl h
  | succ k ih =>
    rw [Function.iterate_succ_apply']
    rcases ih with ih | ⟨e, ih⟩
    · exact token_advance _ _ _ _ ih
    · refine .inr ⟨e, ?_⟩
      rw [executeStep, ih]
      rfl

/-- An exchange that returns passed the checks of its client and found its code, and its
token certifies what was cached with the code. -/
theorem execute_returned {r' : Redis} {dto : TokenInfoDTO}
    (h : execute server request draw r = (r', .returned dto)) :
    ∃ client code info, checkClient server request = .ok (client, code) ∧
      r.getCode code = some info ∧
      dto.accessToken = server.generateToken (buildCertification request client info)
        (draw.currentTimeMillis + client.timeout) := by
  rw [execute, Function.iterate_succ_apply, executeStep] at h
  rcases advance_requested server request draw r
    with ⟨e, heq⟩ | ⟨client, code, info, hcheck, hcode, heq⟩
  · rw [heq, Function.iterate_fixed (by rfl)] at h
    cases h
  · refine ⟨client, code, info, hcheck, hcode, ?_⟩
    rw [heq, Function.iterate_succ_apply] at h
    rcases token_iterate server request draw 5
      (p := executeStep server request draw (r, .codeRead client info)) rfl with htoken | ⟨e, he⟩
    · rw [h] at htoken
      exact Option.some.inj htoken
    · rw [h] at he
      cases he

end Command

end BigPlan.Auth
