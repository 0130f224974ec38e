import BigPlan.Auth.Oauth2Controller

/-!
# Whose code it is

A cached code names the user it was issued to, and nothing else. So a client that
exchanges it has shown its own secret, and gets a token for that user, but the code
may have been requested for another client.
-/
namespace BigPlan.Auth

open Lib.Java Lib.Runs

namespace AuthState

variable {server : AuthServer} {s : AuthState}

/-- Every cached code was issued, with what is cached. -/
def Recorded (s : AuthState) : Prop :=
  ∀ code info, s.redis.getCode code = some info →
    ∃ issue ∈ s.issued, issue.code = code ∧ issue.info = info

theorem Recorded.mono {s' : AuthState} (h : s.Recorded) (hcodes : s.redis.NoNewCode s'.redis)
    (hissued : s'.issued = s.issued) : s'.Recorded := by
  intro code info hcode
  rw [hissued]
  exact h code info (hcodes code info hcode)

theorem recorded_issue (h : s.Recorded) (clientId : Option String) (user : UserDetails)
    (redirectUrl : Option String) (draw : Draw) :
    (issue s clientId user redirectUrl draw).1.Recorded := by
  intro code info hcode
  simp only [issue, Redis.generateCode, Redis.getCode] at hcode
  by_cases hnew : code = draw.uuid
  · subst hnew
    rw [Function.update_self, Option.some.injEq] at hcode
    exact ⟨_, List.mem_append_right _ List.mem_cons_self, rfl, hcode⟩
  · rw [Function.update_of_ne hnew] at hcode
    obtain ⟨issue, hmem, hissue⟩ := h code info hcode
    exact ⟨issue, List.mem_append_left _ hmem, hissue⟩

theorem codeCache_of_caches {clientId : Option String} {user : UserDetails} {r r' : Redis}
    (h : Caches server clientId user r r') : r'.codeCache = r.codeCache := by
  cases h <;> rfl

theorem Recorded.of_answers {s' : AuthState} (h : s.Recorded) (hanswers : Answers server s s') :
    s'.Recorded := by
  cases hanswers with
  | nothing users => exact h
  | issue users found caches redirectUrl draw =>
    apply recorded_issue
    intro code info hcode
    rw [Redis.getCode, codeCache_of_caches caches] at hcode
    exact h code info hcode

theorem redis_exchange (s : AuthState) (request : AuthorizeTokenDTO) (draw : Draw) :
    (exchange server s request draw).1 =
      { s with redis := (execute server request draw s.redis).1 } := by
  unfold exchange
  split <;> rename_i heq <;> rw [heq]

theorem recorded_step (h : s.Recorded) (a : AuthRequest) : (step server s a).Recorded := by
  cases a with
  | authorize session responseType clientId redirectUrl scope draw =>
    exact h.of_answers (answers_authorize s session responseType clientId redirectUrl scope draw)
  | userAuthorize session dto draw => exact h.of_answers (answers_userAuthorize s session dto draw)
  | exchange request draw =>
    simp only [step, redis_exchange]
    exact h.mono (noNewCode_iterate server request draw 7 (s.redis, .requested)) rfl
  | expire key => exact h.mono (Redis.noNewCode_delete s.redis key) rfl

theorem recorded_run (server : AuthServer) (sessions : Nat → Option UserDetails)
    (requests : List AuthRequest) : (run (step server) (start sessions) requests).Recorded := by
  apply invariant_run (P := Recorded)
  · intro s a h
    exact recorded_step h a
  · intro code info h
    cases h

/-- In every run, a client that gets a token for a code has shown its secret. The code was
issued by a request of the run, to the user that the token names, though perhaps for another
client. -/
theorem exchanged_code_issued (server : AuthServer) (sessions : Nat → Option UserDetails)
    (requests : List AuthRequest) (request : AuthorizeTokenDTO) (draw : Draw)
    {redis : Redis} {dto : TokenInfoDTO}
    (h : execute server request draw (run (step server) (start sessions) requests).redis =
      (redis, .returned dto)) :
    ∃ issue ∈ (run (step server) (start sessions) requests).issued,
      request.code = some issue.code ∧
      ∃ client, server.findByClientId request.clientId = some client ∧
        server.passwordMatches request.clientSecret client.secret = true ∧
        dto.accessToken = server.generateToken (buildCertification request client issue.info)
          (draw.currentTimeMillis + client.timeout) := by
  obtain ⟨client, code, info, hcheck, hcode, htoken⟩ := execute_returned server request draw _ h
  obtain ⟨hclient, hsecret, hrequest⟩ := checkClient_ok hcheck
  obtain ⟨issue, hmem, rfl, rfl⟩ := recorded_run server sessions requests code info hcode
  exact ⟨issue, hmem, hrequest, client, hclient, hsecret, htoken⟩

def clientNamed (clientId secret : String) : ClientDetails :=
  { id := 1, clientId, secret, grantTypes := some "authorization_code", scopes := some "a:b"
    redirectUrl := some "/", timeout := 7200000, refreshTokenTimeout := 86400000, autoGrant := true
    privateKey := none }

/-- Two clients, with all users, and tokens that are not signed. -/
def twoClients : AuthServer where
  findByClientId clientId :=
    if clientId = some "a" then some (clientNamed "a" "s")
    else if clientId = some "b" then some (clientNamed "b" "t")
    else none
  findByUserIdAndClientId _ _ := true
  passwordMatches password secret := password == some secret
  generateToken certification expiration := stringOf certification.name ++ "." ++ longToString expiration

def oneSession (session : Nat) : Option UserDetails :=
  if session = 0 then
    some { id := 7, username := "u", authorities := ["a:b"], customerInfo := none, clientId := none }
  else none

/-- The user authorizes client `a`. -/
def authorizeA : List AuthRequest :=
  [.authorize 0 (some .code) (some "a") none none ⟨1000, "c"⟩]

def exchangeBy (clientId secret : String) : AuthorizeTokenDTO :=
  { grantType := .authorization_code, clientId := some clientId, clientSecret := some secret
    code := some "c", refreshToken := none }

/-- Client `a` exchanges its code. -/
theorem exchanged_code_issued_own :
    ∃ issue ∈ (run (step twoClients) (start oneSession) authorizeA).issued,
      issue.code = "c" ∧ issue.info.userId = 7 := by
  have h : (execute twoClients (exchangeBy "a" "s") ⟨2000, "d"⟩
      (run (step twoClients) (start oneSession) authorizeA).redis).2 =
        .returned { accessToken := "u.7202000", refreshToken := none, expiresIn := 7200000 } := by
    decide +kernel
  obtain ⟨issue, hmem, hcode, -⟩ := exchanged_code_issued twoClients oneSession authorizeA
    (exchangeBy "a" "s") ⟨2000, "d"⟩ (Prod.ext rfl h)
  have huser : ∀ issue ∈ (run (step twoClients) (start oneSession) authorizeA).issued,
      issue.info.userId = 7 := by decide +kernel
  exact ⟨issue, hmem, (Option.some.inj hcode).symm, huser issue hmem⟩

/-- The user authorizes client `a`, and client `b` exchanges the code. -/
theorem exchanged_by_other :
    ¬ ∀ (server : AuthServer) (sessions : Nat → Option UserDetails)
      (requests : List AuthRequest) (request : AuthorizeTokenDTO) (draw : Draw) (redis : Redis)
      (dto : TokenInfoDTO),
      execute server request draw (run (step server) (start sessions) requests).redis =
        (redis, .returned dto) →
      ∃ issue ∈ (run (step server) (start sessions) requests).issued,
        request.code = some issue.code ∧ issue.clientId = request.clientId := by
  intro hclaim
  have h : (execute twoClients (exchangeBy "b" "t") ⟨2000, "d"⟩
      (run (step twoClients) (start oneSession) authorizeA).redis).2 =
        .returned { accessToken := "u.7202000", refreshToken := none, expiresIn := 7200000 } := by
    decide +kernel
  have hissue := hclaim twoClients oneSession authorizeA (exchangeBy "b" "t") ⟨2000, "d"⟩ _ _
    (Prod.ext rfl h)
  exact absurd hissue (by decide +kernel)

end AuthState

end BigPlan.Auth
