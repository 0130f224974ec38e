import BigPlan.Auth.CodeOwner
import BigPlan.Auth.TokenWrites

/-!
# Tokens carry granted scopes

Scopes reach the store of access tokens from the scope cache, where an endpoint put them
after checking the client and the user, or from the client and the user themselves.
The history keeps what was saved for each token, and for whom.
-/
namespace BigPlan.Auth

open Lib.Java Lib.Runs Lib.Fallible

inductive ServerRequest where
  | authorize (session : Nat) (responseType : Option ResponseType)
      (clientId redirectUrl scope : Option String) (draw : Draw)
  | userAuthorize (session : Nat) (dto : UserAuthorizeDTO) (draw : Draw)
  | token (request : TokenRequest) (draw : Draw)
  | expire (key : String)
  deriving DecidableEq, Repr

/-- What was saved for a token, and the request that it was saved for. -/
structure Saved where
  grantType : GrantType
  clientId : Option String
  info : AuthorizeInfo
  deriving DecidableEq, Repr

structure Granting where
  auth : AuthState
  saved : List Saved

namespace Granting

variable (server : TokenServer)

def step (s : Granting) : ServerRequest → Granting
  | .authorize session responseType clientId redirectUrl scope draw =>
    { s with auth := (AuthState.authorize server.toAuthServer s.auth session responseType clientId
               redirectUrl scope draw).1 }
  | .userAuthorize session dto draw =>
    { s with auth := (AuthState.userAuthorize server.toAuthServer s.auth session dto draw).1 }
  | .token request draw =>
    { auth := { s.auth with redis := (token server request draw s.auth.redis).1 }
      saved := s.saved ++ (saves server request draw s.auth.redis).map fun info =>
        { grantType := request.grantType, clientId := request.clientId, info } }
  | .expire key => { s with auth := { s.auth with redis := s.auth.redis.delete key } }

def start (sessions : Nat → Option UserDetails) : Granting :=
  { auth := AuthState.start sessions, saved := [] }

variable (authorities : JLong → List String)

/-- The scopes belong to the client and, unless they are the client's own, to the user. -/
def Saved.Granted (g : Saved) : Prop :=
  ∃ client, server.findByClientId g.clientId = some client ∧
    ∀ scope ∈ g.info.entity.readScopes, scope ∈ client.getScopes ∧
      (g.grantType ≠ .client_credentials → scope ∈ authorities g.info.userId)

/-- All that is stored was saved by some request, and all that is saved or cached was
granted. -/
structure OnlyGranted (s : Granting) : Prop where
  stored : ∀ token entity, s.auth.redis.authorizeInfo token = some entity →
    ∃ g ∈ s.saved, g.info.token = token ∧ g.info.entity = entity
  granted : ∀ g ∈ s.saved, Saved.Granted server authorities g
  cached : ∀ clientId uid scopes, s.auth.redis.getScopes (some clientId) uid = some scopes →
    ∃ client, server.findByClientId (some clientId) = some client ∧
      ∀ scope ∈ scopes, scope ∈ client.getScopes ∧ scope ∈ authorities uid

/-- The sessions agree with the authorities of the users. -/
def Sessions (sessions : Nat → Option UserDetails) : Prop :=
  ∀ session user, sessions session = some user → user.authorities = authorities user.id

variable {server authorities} {s : Granting}

theorem Sessions.of_sameUsers {sessions sessions' : Nat → Option UserDetails}
    (h : Sessions authorities sessions) (hsame : SameUsers sessions sessions') :
    Sessions authorities sessions' := by
  intro session user huser
  obtain ⟨clientId, hold⟩ := hsame session user huser
  have hauthorities := h session _ hold
  exact hauthorities

/-- What an endpoint caches was granted to the client and the user of the key. -/
theorem cached_of_caches {clientId : Option String} {user : UserDetails} {r r' : Redis}
    (hnull : server.findByClientId none = none) (huser : user.authorities = authorities user.id)
    (h : Caches server.toAuthServer clientId user r r')
    (hcached : ∀ clientId uid scopes, r.getScopes (some clientId) uid = some scopes →
      ∃ client, server.findByClientId (some clientId) = some client ∧
        ∀ scope ∈ scopes, scope ∈ client.getScopes ∧ scope ∈ authorities uid)
    (clientId' : String) (uid : JLong) (scopes : List String)
    (hscopes : r'.getScopes (some clientId') uid = some scopes) :
    ∃ client, server.findByClientId (some clientId') = some client ∧
      ∀ scope ∈ scopes, scope ∈ client.getScopes ∧ scope ∈ authorities uid := by
  cases h with
  | same => exact hcached clientId' uid scopes hscopes
  | @scopes client granted found grantable =>
    cases clientId with
    | none =>
      rw [hnull] at found
      cases found
    | some clientId =>
      simp only [Redis.getScopes] at hscopes
      by_cases hkey : Redis.scopeKey (some clientId') uid = Redis.scopeKey (some clientId) user.id
      · obtain ⟨rfl, rfl⟩ := scopeKey_inj hkey
        rw [Function.update_self, Option.some.injEq] at hscopes
        subst hscopes
        refine ⟨client, found, fun scope hscope => ?_⟩
        obtain ⟨hclient, hauth⟩ := grantable scope hscope
        exact ⟨hclient, huser ▸ hauth⟩
      · rw [Function.update_of_ne hkey] at hscopes
        exact hcached clientId' uid scopes hscopes

theorem authorizeInfo_of_caches {clientId : Option String} {user : UserDetails} {r r' : Redis}
    (h : Caches server.toAuthServer clientId user r r') : r'.authorizeInfo = r.authorizeInfo := by
  cases h <;> rfl

theorem onlyGranted_answers {auth : AuthState} (hnull : server.findByClientId none = none)
    (hsessions : Sessions authorities s.auth.sessions) (h : s.OnlyGranted server authorities)
    (hanswers : Answers server.toAuthServer s.auth auth) :
    OnlyGranted server authorities { s with auth } ∧ Sessions authorities auth.sessions := by
  cases hanswers with
  | nothing users => exact ⟨⟨h.stored, h.granted, h.cached⟩, hsessions.of_sameUsers users⟩
  | issue users found caches redirectUrl draw =>
    have hsessions' := hsessions.of_sameUsers users
    refine ⟨⟨?_, h.granted, ?_⟩, hsessions'⟩
    · intro token entity hentity
      apply h.stored token entity
      rw [← authorizeInfo_of_caches caches]
      exact hentity
    · intro clientId uid scopes hscopes
      exact cached_of_caches hnull (hsessions' _ _ found) caches h.cached clientId uid scopes hscopes

/-! ## Token requests -/

/-- Scopes loaded from the cache were granted to the client and the user. -/
theorem granted_of_cached {clientId : Option String} {r : Redis}
    (hnull : server.findByClientId none = none)
    (hcached : ∀ clientId uid scopes, r.getScopes (some clientId) uid = some scopes →
      ∃ client, server.findByClientId (some clientId) = some client ∧
        ∀ scope ∈ scopes, scope ∈ client.getScopes ∧ scope ∈ authorities uid)
    {client : ClientDetails} (hclient : server.findByClientId clientId = some client)
    {grantType : GrantType} {info : AuthorizeInfo}
    (hscopes : ∀ scope ∈ info.scopes, scope ∈ loadAuthorizedScope r clientId info.userId) :
    Saved.Granted server authorities { grantType, clientId, info } := by
  have hall : ∀ scope ∈ info.scopes, scope ∈ client.getScopes ∧ scope ∈ authorities info.userId := by
    intro scope hscope
    have hload := hscopes scope hscope
    cases clientId with
    | none =>
      rw [hnull] at hclient
      cases hclient
    | some clientId =>
      cases hget : r.getScopes (some clientId) info.userId with
      | none => simp [loadAuthorizedScope, hget] at hload
      | some scopes =>
        obtain ⟨client', hclient', hgranted⟩ := hcached clientId info.userId scopes hget
        obtain rfl : client = client' := Option.some.inj (hclient.symm.trans hclient')
        apply hgranted
        simpa [loadAuthorizedScope, hget] using hload
  refine ⟨client, hclient, fun scope hscope => ?_⟩
  obtain ⟨hc, ha⟩ := hall scope
    (mem_readScopes (fun x hx => comma_notMem_getScopes (hall x hx).1) hscope)
  exact ⟨hc, fun _ => ha⟩

theorem checkPassword_ok {request : TokenRequest} {client : ClientDetails} {user : UserDetails}
    {scopes : List String} (h : checkPassword server request = .ok (client, user, scopes)) :
    server.findByClientId request.clientId = some client ∧
      (∃ password, server.loadUserByUsername request.username = .ok (user, password)) ∧
      Grantable client user scopes := by
  unfold checkPassword at h
  split at h
  · cases h
  · rename_i c hpre
    split at h
    · cases h
    · rename_i u password hload
      split at h
      · cases h
      · split at h
        · cases h
        · split at h
          · cases h
          · rename_i found hfilter
            cases h
            refine ⟨(preCheck_ok hpre).1, ⟨password, hload⟩, fun scope hscope => ?_⟩
            obtain ⟨hmem, hauth⟩ := mem_filterM hfilter hscope
            exact ⟨hmem, hasAuthority_true hauth⟩

theorem checkCredentials_ok {request : TokenRequest} {client : ClientDetails}
    (h : checkCredentials server request = .ok client) :
    server.findByClientId request.clientId = some client := by
  unfold checkCredentials at h
  split at h
  · cases h
  · rename_i c hpre
    split at h
    · cases h
    · cases h
      exact (preCheck_ok hpre).1

/-- A token request saves what was granted, whatever its grant type. -/
theorem granted_saves {r : Redis} (hnull : server.findByClientId none = none)
    (hload : ∀ username user password, server.loadUserByUsername username = .ok (user, password) →
      user.authorities = authorities user.id)
    (hcached : ∀ clientId uid scopes, r.getScopes (some clientId) uid = some scopes →
      ∃ client, server.findByClientId (some clientId) = some client ∧
        ∀ scope ∈ scopes, scope ∈ client.getScopes ∧ scope ∈ authorities uid)
    {request : TokenRequest} {draw : Draw} {info : AuthorizeInfo}
    (h : info ∈ saves server request draw r) :
    Saved.Granted server authorities
      { grantType := request.grantType, clientId := request.clientId, info } := by
  unfold saves at h
  cases hgrant : request.grantType with
  | authorization_code =>
    rw [hgrant] at h
    obtain ⟨⟨client, hclient⟩, hscopes⟩ := executeSaves_cached _ _ _ _ h
    exact granted_of_cached hnull hcached hclient fun scope hscope => hscopes ▸ hscope
  | refresh_token =>
    rw [hgrant] at h
    dsimp only at h
    cases hcheck : checkRefresh server request r with
    | error e =>
      rw [hcheck] at h
      cases h
    | ok checked =>
      obtain ⟨client, old, user⟩ := checked
      rw [hcheck] at h
      rw [List.mem_singleton.mp h]
      have hclient := (preCheck_ok (checkRefresh_ok hcheck).1).1
      have hold := writes_delete r (AUTHORIZE_INFO_PREFIX ++ old.accessToken)
      refine granted_of_cached hnull ?_ hclient fun scope hscope => hscope
      intro clientId uid scopes hscopes
      exact hcached clientId uid scopes (hold.scopes _ _ hscopes)
  | password =>
    rw [hgrant] at h
    dsimp only at h
    cases hcheck : checkPassword server request with
    | error e =>
      rw [hcheck] at h
      cases h
    | ok checked =>
      obtain ⟨client, user, scopes⟩ := checked
      rw [hcheck] at h
      rw [List.mem_singleton.mp h]
      obtain ⟨hclient, ⟨password, huser⟩, hgrantable⟩ := checkPassword_ok hcheck
      refine ⟨client, hclient, fun scope hscope => ?_⟩
      obtain ⟨hc, ha⟩ := hgrantable scope
        (mem_readScopes (fun x hx => comma_notMem_getScopes (hgrantable x hx).1) hscope)
      exact ⟨hc, fun _ => hload _ _ _ huser ▸ ha⟩
  | client_credentials =>
    rw [hgrant] at h
    dsimp only at h
    cases hcheck : checkCredentials server request with
    | error e =>
      rw [hcheck] at h
      cases h
    | ok client =>
      rw [hcheck] at h
      rw [List.mem_singleton.mp h]
      refine ⟨client, checkCredentials_ok hcheck, fun scope hscope => ⟨?_, fun hne => ?_⟩⟩
      · exact mem_readScopes (fun x hx => comma_notMem_getScopes hx) hscope
      · exact absurd rfl hne
  | implicit =>
    rw [hgrant] at h
    cases h

/-! ## Runs -/

theorem onlyGranted_step (hnull : server.findByClientId none = none)
    (hload : ∀ username user password, server.loadUserByUsername username = .ok (user, password) →
      user.authorities = authorities user.id)
    (h : s.OnlyGranted server authorities ∧ Sessions authorities s.auth.sessions)
    (a : ServerRequest) :
    OnlyGranted server authorities (step server s a) ∧
      Sessions authorities (step server s a).auth.sessions := by
  obtain ⟨h, hsessions⟩ := h
  cases a with
  | authorize session responseType clientId redirectUrl scope draw =>
    exact onlyGranted_answers hnull hsessions h (answers_authorize ..)
  | userAuthorize session dto draw =>
    exact onlyGranted_answers hnull hsessions h (answers_userAuthorize ..)
  | token request draw =>
    have hwrites := writes_token server request draw s.auth.redis
    refine ⟨⟨?_, ?_, ?_⟩, hsessions⟩
    · intro token entity hentity
      rcases hwrites.entities token entity hentity with hold | ⟨info, hmem, hinfo⟩
      · obtain ⟨g, hg, hinfo⟩ := h.stored token entity hold
        exact ⟨g, List.mem_append_left _ hg, hinfo⟩
      · exact ⟨_, List.mem_append_right _ (List.mem_map_of_mem hmem), hinfo⟩
    · intro g hg
      rcases List.mem_append.mp hg with hg | hg
      · exact h.granted g hg
      · obtain ⟨info, hmem, rfl⟩ := List.mem_map.mp hg
        exact granted_saves hnull hload h.cached hmem
    · intro clientId uid scopes hscopes
      exact h.cached clientId uid scopes (hwrites.scopes _ _ hscopes)
  | expire key =>
    have hwrites := writes_delete s.auth.redis key
    refine ⟨⟨?_, h.granted, ?_⟩, hsessions⟩
    · intro token entity hentity
      rcases hwrites.entities token entity hentity with hold | ⟨info, hmem, -⟩
      · exact h.stored token entity hold
      · cases hmem
    · intro clientId uid scopes hscopes
      exact h.cached clientId uid scopes (hwrites.scopes _ _ hscopes)

/-- In every run, tokens and cached scopes carry only what the client and the user have,
and no two pairs of a client and a user share a key. -/
theorem granted_scopes (server : TokenServer) (authorities : JLong → List String)
    (sessions : Nat → Option UserDetails) (requests : List ServerRequest)
    (hnull : server.findByClientId none = none)
    (hsessions : ∀ session user, sessions session = some user →
      user.authorities = authorities user.id)
    (hload : ∀ username user password, server.loadUserByUsername username = .ok (user, password) →
      user.authorities = authorities user.id) :
    OnlyGranted server authorities (run (step server) (start sessions) requests) ∧
      ∀ (clientId clientId' : String) (uid uid' : JLong),
        Redis.scopeKey (some clientId) uid = Redis.scopeKey (some clientId') uid' →
          clientId = clientId' ∧ uid = uid' := by
  have hstart : OnlyGranted server authorities (start sessions) ∧
      Sessions authorities (start sessions).auth.sessions := by
    refine ⟨⟨?_, ?_, ?_⟩, hsessions⟩
    · intro token entity h
      cases h
    · intro g h
      cases h
    · intro clientId uid scopes h
      cases h
  have hrun : OnlyGranted server authorities (run (step server) (start sessions) requests) ∧
      Sessions authorities (run (step server) (start sessions) requests).auth.sessions := by
    refine invariant_run (P := fun s => OnlyGranted server authorities s ∧
      Sessions authorities s.auth.sessions) ?_ hstart requests
    intro s a h
    exact onlyGranted_step hnull hload h a
  exact ⟨hrun.1, fun _ _ _ _ => scopeKey_inj⟩

open AuthState (twoClients oneSession exchangeBy)

/-- The clients with a user who may also come with a password. -/
def userServer : TokenServer where
  toAuthServer := twoClients
  findUser _ := none
  loadUserByUsername username :=
    match oneSession 0 with
    | some user => if username = some user.username then .ok (user, "p") else .error .illegalArgument
    | none => .error .illegalArgument

/-- The user authorizes client `a`, which exchanges the code. -/
def authorizeAndExchange : List ServerRequest :=
  [.authorize 0 (some .code) (some "a") none none ⟨1000, "c"⟩,
    .token { exchangeBy "a" "s" with username := none, password := none } ⟨2000, "d"⟩]

/-- The exchange saves a token with the scope that the user and the client have. -/
theorem granted_scopes_exchange :
    ∃ g ∈ (run (step userServer) (start oneSession) authorizeAndExchange).saved,
      g.info.entity.readScopes = ["a:b"] ∧ Saved.Granted userServer (fun _ => ["a:b"]) g := by
  have hsessions : ∀ session user, oneSession session = some user →
      user.authorities = ["a:b"] := by
    intro session user h
    unfold oneSession at h
    split at h
    · cases h
      rfl
    · cases h
  have hload : ∀ username user password,
      userServer.loadUserByUsername username = .ok (user, password) →
        user.authorities = ["a:b"] := by
    intro username user password h
    simp only [userServer, oneSession, if_true] at h
    split at h
    · cases h
      rfl
    · cases h
  have honly := (granted_scopes userServer (fun _ => ["a:b"]) oneSession authorizeAndExchange
    rfl hsessions hload).1
  have hsaved : (run (step userServer) (start oneSession) authorizeAndExchange).saved =
      [{ grantType := .authorization_code, clientId := some "a"
         info := { userId := 7, token := "u.7202000", customerInfo := some []
                   scopes := ["a:b"] } }] := by
    decide +kernel
  refine ⟨_, hsaved ▸ List.mem_singleton.mpr rfl, by decide +kernel, ?_⟩
  exact honly.granted _ (hsaved ▸ List.mem_singleton.mpr rfl)

end Granting

end BigPlan.Auth
