import BigPlan.Auth.Oauth2Controller

/-!
# Tokens by grant type

The four `BaseGenerateTokenLogic`s behind the token endpoint, each run to its end.
What they save for a new access token is the argument of one `AuthorizeInfoManager.save`.
-/
namespace BigPlan.Auth

open Lib.Java

/-- What the password grant reads on top of the other ones. -/
structure TokenRequest extends AuthorizeTokenDTO where
  username : Option String
  password : Option String
  deriving DecidableEq, Repr

structure UserEntity where
  id : JLong
  username : String
  deriving DecidableEq, Repr

/-- The server with its users: by id in the database, and by name from the user server,
with an encoded password. -/
structure TokenServer extends AuthServer where
  findUser : JLong → Option UserEntity
  loadUserByUsername : Option String → Except Thrown (UserDetails × String)

/-- The arguments of `AuthorizeInfoManager.save` but for the timeout. -/
structure AuthorizeInfo where
  userId : JLong
  token : String
  customerInfo : Option CustomerInfo
  scopes : List String
  deriving DecidableEq, Repr

namespace Redis

def save (r : Redis) (info : AuthorizeInfo) : Redis :=
  (r.saveAuthorizeInfo info.token info.customerInfo info.scopes).saveIdToken info.userId info.token

/-- `AuthorizeInfoManager.delete`. -/
def deleteAuthorizeInfo (r : Redis) (token : String) : Redis :=
  r.delete (AUTHORIZE_INFO_PREFIX ++ token)

/-- `generateRefreshToken`: the old token is deleted under its bare name. -/
def generateRefreshToken (r : Redis) (oldRefreshToken : Option String) (userId : JLong)
    (token : String) (draw : Draw) : Redis :=
  let r := if isBlank oldRefreshToken then r else r.delete (oldRefreshToken.getD "")
  r.saveRefreshToken draw.uuid { userId, accessToken := token }

end Redis

section Logic

variable (server : TokenServer) (request : TokenRequest) (draw : Draw) (r : Redis)

/-- `execute` up to `doLogic`. -/
def preCheck : Except Thrown ClientDetails :=
  match server.findByClientId request.clientId with
  | none => .error (.business .CLIENT_ERROR)
  | some client =>
    match client.getGrantTypes with
    | .error e => .error e
    | .ok grantTypes =>
      if ¬ grantTypes.contains request.grantType then .error (.business .CLIENT_ERROR)
      else .ok client

/-- The user of a refresh token, with one authority whoever it is. -/
def findById (id : JLong) : Option UserDetails :=
  (server.findUser id).map fun user =>
    { id := user.id, username := user.username
      authorities := ["MoneyManagement:Test:checkAccessCard"], customerInfo := none
      clientId := none }

/-! ## `RefreshTokenGenerateTokenLogic` -/

/-- What is checked before anything is written. -/
def checkRefresh : Except Thrown (ClientDetails × RefreshTokenDTO × UserDetails) :=
  match preCheck server request with
  | .error e => .error e
  | .ok client =>
    if isBlank request.refreshToken then .error (.business .NEED_REFRESH_TOKEN)
    else if ¬ server.passwordMatches request.clientSecret client.secret then
      .error (.business .CLIENT_ERROR)
    else
      match r.refreshToken (request.refreshToken.getD "") with
      | none => .error (.business .REFRESH_TOKEN_EXPIRED)
      | some dto =>
        match findById server dto.userId with
        | none => .error .nullPointer
        | some user =>
          if ¬ server.findByUserIdAndClientId user.id client.id then
            .error (.business .CLIENT_ERROR)
          else .ok (client, dto, user)

def refreshInfo (client : ClientDetails) (user : UserDetails) : AuthorizeInfo :=
  { userId := user.id
    token := server.generateToken
      { id := user.id, name := some user.username, clientId := request.clientId
        sign := !isBlank client.privateKey } (draw.currentTimeMillis + client.timeout)
    customerInfo := some user.getCustomerInfo
    scopes := loadAuthorizedScope r request.clientId user.id }

def refresh : Redis × Except Thrown TokenInfoDTO :=
  match checkRefresh server request r with
  | .error e => (r, .error e)
  | .ok (client, old, user) =>
    let r := r.deleteAuthorizeInfo old.accessToken
    let info := refreshInfo server request draw r client user
    let r := r.save info
    match client.getGrantTypes with
    | .error e => (r, .error e)
    | .ok grantTypes =>
      if grantTypes.contains .refresh_token ∧ client.refreshTokenTimeout.toInt > 0 then
        (r.generateRefreshToken request.refreshToken user.id info.token draw,
          .ok { accessToken := info.token, refreshToken := some draw.uuid
                expiresIn := client.timeout })
      else
        (r, .ok { accessToken := info.token, refreshToken := none, expiresIn := client.timeout })

/-! ## `PasswordBaseGenerateTokenLogic` -/

def checkPassword : Except Thrown (ClientDetails × UserDetails × List String) :=
  match preCheck server request with
  | .error e => .error e
  | .ok client =>
    match server.loadUserByUsername request.username with
    | .error e => .error e
    | .ok (user, password) =>
      if ¬ server.findByUserIdAndClientId user.id client.id then .error (.business .CLIENT_ERROR)
      else if ¬ server.passwordMatches request.password password then
        .error (.business .LOGIN_FAIL)
      else
        match client.getScopes.filterM (hasAuthority user.authorities) with
        | .error e => .error e
        | .ok scopes => .ok (client, user, scopes)

def passwordInfo (client : ClientDetails) (user : UserDetails) (scopes : List String) :
    AuthorizeInfo :=
  { userId := user.id
    token := server.generateToken
      { id := user.id, name := request.username, clientId := some client.clientId
        sign := !isBlank client.privateKey } (draw.currentTimeMillis + client.timeout)
    customerInfo := some user.getCustomerInfo
    scopes }

def passwordGrant : Redis × Except Thrown TokenInfoDTO :=
  match checkPassword server request with
  | .error e => (r, .error e)
  | .ok (client, user, scopes) =>
    let info := passwordInfo server request draw client user scopes
    (r.save info,
      .ok { accessToken := info.token, refreshToken := none, expiresIn := client.timeout })

/-! ## `ClientCredentialsGenerateTokenLogic` -/

def checkCredentials : Except Thrown ClientDetails :=
  match preCheck server request with
  | .error e => .error e
  | .ok client =>
    if ¬ server.passwordMatches request.clientSecret client.secret then
      .error (.business .CLIENT_ERROR)
    else .ok client

/-- The token of a client has user id -1 in the store. -/
def credentialsInfo (client : ClientDetails) : AuthorizeInfo :=
  { userId := -1
    token := server.generateToken
      { id := client.id, name := request.clientId, clientId := request.clientId
        sign := !isBlank client.privateKey } (draw.currentTimeMillis + client.timeout)
    customerInfo := none
    scopes := client.getScopes }

def clientCredentials : Redis × Except Thrown TokenInfoDTO :=
  match checkCredentials server request with
  | .error e => (r, .error e)
  | .ok client =>
    let info := credentialsInfo server request draw client
    (r.save info,
      .ok { accessToken := info.token, refreshToken := none, expiresIn := client.timeout })

/-- The answer of an exchange of a code that has come to its end. -/
def Exchange.answer : Exchange → Except Thrown TokenInfoDTO
  | .returned dto => .ok dto
  | .thrown e => .error e
  | _ => .error .nullPointer

def codeGrant : Redis × Except Thrown TokenInfoDTO :=
  let (r, exchange) := execute server.toAuthServer request.toAuthorizeTokenDTO draw r
  (r, exchange.answer)

/-- The endpoint: there is no logic for the implicit grant. -/
def token : Redis × Except Thrown TokenInfoDTO :=
  match request.grantType with
  | .authorization_code => codeGrant server request draw r
  | .refresh_token => refresh server request draw r
  | .password => passwordGrant server request draw r
  | .client_credentials => clientCredentials server request draw r
  | .implicit => (r, .error (.business .NOT_SUPPORT))

end Logic

/-! ## What the checks have found -/

section Checked

variable {server : TokenServer} {request : TokenRequest} {r : Redis} {client : ClientDetails}
  {old : RefreshTokenDTO} {user : UserDetails}

theorem preCheck_ok (h : preCheck server request = .ok client) :
    server.findByClientId request.clientId = some client ∧
      ∃ grantTypes, client.getGrantTypes = .ok grantTypes ∧
        grantTypes.contains request.grantType = true := by
  unfold preCheck at h
  split at h
  · cases h
  · rename_i c hfind
    split at h
    · cases h
    · rename_i grantTypes hgrant
      split at h
      · cases h
      · rename_i hcontains
        cases h
        exact ⟨hfind, grantTypes, hgrant, by simpa using hcontains⟩

theorem checkRefresh_ok (h : checkRefresh server request r = .ok (client, old, user)) :
    preCheck server request = .ok client ∧
      findById server old.userId = some user ∧
      ∃ token, request.refreshToken = some token ∧ r.refreshToken token = some old := by
  unfold checkRefresh at h
  split at h
  · cases h
  · rename_i c hpre
    split at h
    · cases h
    · rename_i hblank
      split at h
      · cases h
      · split at h
        · cases h
        · rename_i dto hdto
          split at h
          · cases h
          · rename_i u huser
            split at h
            · cases h
            · cases h
              refine ⟨hpre, huser, ?_⟩
              cases htoken : request.refreshToken with
              | none => simp [htoken] at hblank
              | some token => exact ⟨token, rfl, by rw [htoken] at hdto; exact hdto⟩

end Checked

end BigPlan.Auth
