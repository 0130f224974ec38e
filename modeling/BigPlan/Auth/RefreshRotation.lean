import BigPlan.Auth.OneCode
import BigPlan.Auth.TokenLogic

/-!
# Rotation of refresh tokens

A refresh saves its new token under the prefix of refresh tokens, and deletes the old one
under its bare name, which is no key of a refresh token. So the old token stays as good
as the new one. The history keeps the chain of tokens that goes back to each exchange
of a code.
-/
namespace BigPlan.Auth

open Lib.Java Lib.Runs

/-! ## Keys -/

theorem refreshKey_ne_self (token : String) : REFRESH_TOKEN_PREFIX ++ token ≠ token := by
  intro h
  have hlen := congrArg (fun s : String => s.toList.length) h
  simp only [REFRESH_TOKEN_PREFIX, String.toList_append, List.length_append] at hlen
  have : "refreshToken:".toList.length = 13 := by decide
  omega

theorem refreshKey_ne_authorizeInfoKey (token accessToken : String) :
    REFRESH_TOKEN_PREFIX ++ token ≠ AUTHORIZE_INFO_PREFIX ++ accessToken := by
  intro h
  have hchars := congrArg String.toList h
  simp [REFRESH_TOKEN_PREFIX, AUTHORIZE_INFO_PREFIX] at hchars

namespace Redis

variable (r : Redis) {token : String}

theorem refreshToken_delete {key : String} (h : REFRESH_TOKEN_PREFIX ++ token ≠ key) :
    (r.delete key).refreshToken token = r.refreshToken token := if_neg h

theorem refreshToken_deleteAuthorizeInfo (accessToken : String) :
    (r.deleteAuthorizeInfo accessToken).refreshToken token = r.refreshToken token :=
  r.refreshToken_delete (refreshKey_ne_authorizeInfoKey token accessToken)

/-- The token that was presented survives the generation of the next one. -/
theorem refreshToken_generateRefreshToken {dto : RefreshTokenDTO}
    (h : r.refreshToken token = some dto) (userId : JLong) (accessToken : String) (draw : Draw) :
    (r.generateRefreshToken (some token) userId accessToken draw).refreshToken token =
      some dto := by
  have hdelete : (if isBlank (some token) then r else r.delete token).refreshToken token =
      some dto := by
    split
    · exact h
    · rw [r.refreshToken_delete (refreshKey_ne_self token), h]
  simp only [generateRefreshToken, saveRefreshToken, Option.getD_some]
  rw [hdelete]
  split <;> rfl

end Redis

/-! ## What a refresh does -/

section Refresh

variable {server : TokenServer} {request : TokenRequest} {r : Redis} {client : ClientDetails}
  {old : RefreshTokenDTO} {user : UserDetails}

/-- The checks read no more of the store than the token that is presented. -/
theorem checkRefresh_congr {r' : Redis} (h : r'.refreshToken (request.refreshToken.getD "") =
    r.refreshToken (request.refreshToken.getD "")) :
    checkRefresh server request r' = checkRefresh server request r := by
  unfold checkRefresh
  rw [h]

variable (draw : Draw)

theorem refresh_error {e : Thrown} (h : checkRefresh server request r = .error e) :
    refresh server request draw r = (r, .error e) := by
  simp only [refresh, h]

/-- A request that passes the checks is answered, and its refresh token stays in the store. -/
theorem refresh_ok (h : checkRefresh server request r = .ok (client, old, user)) :
    ∃ dto, (refresh server request draw r).2 = .ok dto ∧
      (refresh server request draw r).1.refreshToken (request.refreshToken.getD "") =
        r.refreshToken (request.refreshToken.getD "") := by
  obtain ⟨hpre, -, token, htoken, hold⟩ := checkRefresh_ok h
  obtain ⟨-, grantTypes, hgrant, -⟩ := preCheck_ok hpre
  have hkeep := (Redis.refreshToken_deleteAuthorizeInfo r old.accessToken).trans hold
  simp only [refresh, h, hgrant, htoken, Option.getD_some, hold]
  split
  · refine ⟨_, rfl, ?_⟩
    apply Redis.refreshToken_generateRefreshToken
    exact hkeep
  · exact ⟨_, rfl, hkeep⟩

/-- The access token that came with the refresh token is gone if the new one is another. -/
theorem authorizeInfo_refresh (h : checkRefresh server request r = .ok (client, old, user))
    (hfresh : (refreshInfo server request draw (r.deleteAuthorizeInfo old.accessToken) client
      user).token ≠ old.accessToken) :
    (refresh server request draw r).1.authorizeInfo old.accessToken = none := by
  obtain ⟨hpre, -⟩ := checkRefresh_ok h
  obtain ⟨-, grantTypes, hgrant, -⟩ := preCheck_ok hpre
  have hgone (info : AuthorizeInfo) (hne : info.token ≠ old.accessToken) :
      ((r.deleteAuthorizeInfo old.accessToken).save info).authorizeInfo old.accessToken = none := by
    have hsave : ((r.deleteAuthorizeInfo old.accessToken).save info).authorizeInfo
        old.accessToken = (r.deleteAuthorizeInfo old.accessToken).authorizeInfo old.accessToken :=
      Function.update_of_ne hne.symm _ _
    rw [hsave]
    exact if_pos rfl
  simp only [refresh, h, hgrant]
  split
  · simp only [Redis.generateRefreshToken, Redis.saveRefreshToken]
    split
    · exact hgone _ hfresh
    · simp only [Redis.delete]
      rw [hgone _ hfresh]
      split <;> rfl
  · exact hgone _ hfresh

end Refresh

/-! ## Runs -/

structure Rotation where
  redis : Redis
  /-- The refresh tokens that go back to each exchange of a code. -/
  chains : List (List String)
  /-- The refresh tokens that were used, with the access token recorded under each. -/
  used : List (String × String)
  answers : List TokenInfoDTO

namespace Rotation

variable (server : TokenServer)

def chainsAfter (s : Rotation) (request : TokenRequest) (dto : TokenInfoDTO) :
    List (List String) :=
  match request.grantType, dto.refreshToken with
  | .authorization_code, some token => s.chains ++ [[token]]
  | .refresh_token, some token =>
    s.chains.map fun chain =>
      if request.refreshToken.getD "" ∈ chain then chain ++ [token] else chain
  | _, _ => s.chains

def usedAfter (s : Rotation) (request : TokenRequest) : List (String × String) :=
  match request.grantType, s.redis.refreshToken (request.refreshToken.getD "") with
  | .refresh_token, some dto => s.used ++ [(request.refreshToken.getD "", dto.accessToken)]
  | _, _ => s.used

def step (s : Rotation) (a : TokenRequest × Draw) : Rotation :=
  match token server a.1 a.2 s.redis with
  | (redis, .error _) => { s with redis }
  | (redis, .ok dto) =>
    { redis, chains := s.chainsAfter a.1 dto, used := s.usedAfter a.1
      answers := s.answers ++ [dto] }

def start (redis : Redis) : Rotation := { redis, chains := [], used := [], answers := [] }

/-- Some request that presents the refresh token is answered with tokens. -/
def Accepted (r : Redis) (refreshToken : String) : Prop :=
  ∃ (request : TokenRequest) (draw : Draw) (dto : TokenInfoDTO),
    request.grantType = .refresh_token ∧ request.refreshToken = some refreshToken ∧
      (token server request draw r).2 = .ok dto

structure Rotates (s : Rotation) : Prop where
  used_rejected : ∀ p ∈ s.used, ¬ Accepted server s.redis p.1
  access_gone : ∀ p ∈ s.used, s.redis.authorizeInfo p.2 = none
  one_accepted : ∀ chain ∈ s.chains, ∀ t ∈ chain, ∀ t' ∈ chain,
    Accepted server s.redis t → Accepted server s.redis t' → t = t'

/-- A request for a refresh fails one of the checks. -/
def Refused (s : Rotation) (a : TokenRequest × Draw) : Prop :=
  a.1.grantType = .refresh_token → (checkRefresh server a.1 s.redis).isOk = false

instance (s : Rotation) (a : TokenRequest × Draw) : Decidable (Refused server s a) := by
  unfold Refused
  infer_instance

/-- What holds as long as no refresh token was used. -/
structure Unused (s : Rotation) : Prop where
  used : s.used = []
  chains : ∀ chain ∈ s.chains, ∃ t, chain = [t]

variable {server} {s : Rotation} {a : TokenRequest × Draw}

theorem Unused.rotates (h : s.Unused) : s.Rotates server where
  used_rejected p hp := by
    rw [h.used] at hp
    cases hp
  access_gone p hp := by
    rw [h.used] at hp
    cases hp
  one_accepted chain hchain t ht t' ht' _ _ := by
    obtain ⟨u, rfl⟩ := h.chains chain hchain
    rw [List.mem_singleton.mp ht, List.mem_singleton.mp ht']

theorem unused_step (h : s.Unused) (hrefused : Refused server s a) : (step server s a).Unused := by
  unfold step
  split
  · exact ⟨h.used, h.chains⟩
  · rename_i redis dto htoken
    have hgrant : a.1.grantType ≠ .refresh_token := by
      intro hgrant
      have hcheck := hrefused hgrant
      cases hok : checkRefresh server a.1 s.redis with
      | ok checked =>
        rw [hok] at hcheck
        cases hcheck
      | error e =>
        simp only [token, hgrant, refresh_error a.2 hok] at htoken
        cases htoken
    refine ⟨?_, ?_⟩
    · unfold usedAfter
      split
      · contradiction
      · exact h.used
    · unfold chainsAfter
      split
      · intro chain hchain
        rcases List.mem_append.mp hchain with hold | hnew
        · exact h.chains chain hold
        · exact ⟨_, List.mem_singleton.mp hnew⟩
      · contradiction
      · exact h.chains

/-- A refresh token that was used is accepted again. -/
theorem not_rotates_step (hrefused : ¬ Refused server s a) : ¬ (step server s a).Rotates server := by
  obtain ⟨request, draw⟩ := a
  simp only [Refused, Classical.not_imp, Bool.not_eq_false] at hrefused
  obtain ⟨hgrant, hcheck⟩ := hrefused
  cases hok : checkRefresh server request s.redis with
  | error e =>
    rw [hok] at hcheck
    cases hcheck
  | ok checked =>
    obtain ⟨client, old, user⟩ := checked
    obtain ⟨-, -, t, ht, hold⟩ := checkRefresh_ok hok
    obtain ⟨dto, hdto, hkeep⟩ := refresh_ok draw hok
    have hstep : step server s (request, draw) =
        { redis := (refresh server request draw s.redis).1
          chains := s.chainsAfter request dto
          used := s.used ++ [(t, old.accessToken)]
          answers := s.answers ++ [dto] } := by
      have htoken : token server request draw s.redis =
          ((refresh server request draw s.redis).1, .ok dto) := by
        simp only [token, hgrant]
        exact Prod.ext rfl hdto
      simp only [step, htoken, usedAfter, hgrant, ht, Option.getD_some, hold]
    have hagain : checkRefresh server request (refresh server request draw s.redis).1 =
        .ok (client, old, user) := by
      rw [checkRefresh_congr hkeep, hok]
    obtain ⟨dto', hdto', -⟩ := refresh_ok draw hagain
    intro hrot
    refine hrot.used_rejected (t, old.accessToken) ?_ ⟨request, draw, dto', hgrant, ht, ?_⟩
    · rw [hstep]
      exact List.mem_append_right _ (List.mem_singleton.mpr rfl)
    · rw [hstep]
      simp only [token, hgrant]
      exact hdto'

/-- Refresh tokens rotate in exactly the runs in which none is used with success. -/
theorem rotates_iff (server : TokenServer) (redis : Redis) (requests : List (TokenRequest × Draw)) :
    Throughout (step server) (Rotates server) (start redis) requests ↔
      Along (step server) (Refused server) (start redis) requests := by
  apply throughout_iff_along (fun _ => Unused)
  · intro s _ h
    exact h.rotates
  · intro s a _ h hrefused
    exact unused_step h hrefused
  · intro s a _ _ hrefused
    exact not_rotates_step hrefused
  · exact ⟨rfl, fun chain h => by cases h⟩

end Rotation

/-- The server with one client and user 7. -/
def oneUserServer : TokenServer where
  toAuthServer := oneClientServer
  findUser id := if id = 7 then some { id, username := "u" } else none
  loadUserByUsername _ := .error .illegalArgument

/-- The client asks for tokens: with the code, or with a refresh token. -/
def clientAsks (grantType : GrantType) (code refreshToken : Option String) : TokenRequest :=
  { grantType, clientId := some "ac", clientSecret := some "s", code, refreshToken
    username := none, password := none }

/-- An exchange of the code, and a refresh with the token that comes from it. -/
def refreshOnce : List (TokenRequest × Draw) :=
  [(clientAsks .authorization_code (some "c") none, ⟨1000, "r1"⟩),
    (clientAsks .refresh_token none (some "r1"), ⟨2000, "r2"⟩)]

namespace Rotation

/-- All tokens are fresh, and the refresh token that was used is accepted again. -/
theorem not_rotates_refreshOnce :
    ¬ ∀ (server : TokenServer) (redis : Redis) (requests : List (TokenRequest × Draw)),
      (∀ a ∈ requests, a.1.grantType = .authorization_code ∨ a.1.grantType = .refresh_token) →
      ((run (step server) (start redis) requests).answers.map (·.accessToken)).Nodup →
      ((run (step server) (start redis) requests).answers.map (·.refreshToken)).Nodup →
      Throughout (step server) (Rotates server) (start redis) requests := by
  intro h
  have hrot := (h oneUserServer issuedCode refreshOnce (by decide +kernel) (by decide +kernel)
    (by decide +kernel)).last
  refine hrot.used_rejected ("r1", "u.7201000") (by decide +kernel)
    ⟨clientAsks .refresh_token none (some "r1"), ⟨3000, "r3"⟩,
      { accessToken := "u.7203000", refreshToken := some "r3", expiresIn := 7200000 }, rfl, rfl, ?_⟩
  decide +kernel

end Rotation

end BigPlan.Auth
