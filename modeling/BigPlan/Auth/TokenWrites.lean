import BigPlan.Auth.ScopeText

/-!
# What a token request writes

An entity for each access token, and no scopes in the scope cache: a token request
reads the scopes that were cached, or takes those of its client.
-/
namespace BigPlan.Auth

open Lib.Java

/-- The entity that `AsyncRedisAuthorizeInfoManager.save` makes of its arguments. -/
def AuthorizeInfo.entity (info : AuthorizeInfo) : AuthorizeInfoEntity :=
  { scopes := String.intercalate "," info.scopes, customerInfo := info.customerInfo }

/-- The scopes that a resource server reads off an entity. -/
def AuthorizeInfoEntity.readScopes (entity : AuthorizeInfoEntity) : List String :=
  (splitComma entity.scopes).filter fun scope => !isBlank (some scope)

theorem mem_readScopes {info : AuthorizeInfo} {scope : String}
    (hcomma : ∀ s ∈ info.scopes, ',' ∉ s.toList) (h : scope ∈ info.entity.readScopes) :
    scope ∈ info.scopes := by
  obtain ⟨hmem, hblank⟩ := List.mem_filter.mp h
  refine (mem_splitComma_intercalate ?_ hcomma).mp hmem
  intro hsame
  subst hsame
  exact absurd hblank (by decide)

theorem comma_notMem_getScopes {client : ClientDetails} {scope : String}
    (h : scope ∈ client.getScopes) : ',' ∉ scope.toList := by
  unfold ClientDetails.getScopes at h
  split at h
  · cases h
  · exact comma_notMem_of_mem_splitComma (List.mem_dedup.mp h)

/-! ## What a request writes -/

/-- `r'` has no scopes that `r` does not cache, and no entities but those of `r` and those
saved. -/
structure Writes (r r' : Redis) (saved : List AuthorizeInfo) : Prop where
  scopes : ∀ key scopes, r'.scopeCache key = some scopes → r.scopeCache key = some scopes
  entities : ∀ token entity, r'.authorizeInfo token = some entity →
    r.authorizeInfo token = some entity ∨
      ∃ info ∈ saved, info.token = token ∧ info.entity = entity

theorem writes_refl (r : Redis) : Writes r r [] := ⟨fun _ _ h => h, fun _ _ h => .inl h⟩

theorem Writes.trans {r r' r'' : Redis} {saved saved' : List AuthorizeInfo}
    (h : Writes r r' saved) (h' : Writes r' r'' saved') : Writes r r'' (saved ++ saved') where
  scopes key scopes hkey := h.scopes key scopes (h'.scopes key scopes hkey)
  entities token entity hentity := by
    rcases h'.entities token entity hentity with hold | ⟨info, hmem, hinfo⟩
    · rcases h.entities token entity hold with hold | ⟨info, hmem, hinfo⟩
      · exact .inl hold
      · exact .inr ⟨info, List.mem_append_left _ hmem, hinfo⟩
    · exact .inr ⟨info, List.mem_append_right _ hmem, hinfo⟩

theorem writes_delete (r : Redis) (key : String) : Writes r (r.delete key) [] where
  scopes k scopes h := by
    simp only [Redis.delete] at h
    split at h
    · cases h
    · exact h
  entities k entity h := by
    simp only [Redis.delete] at h
    split at h
    · cases h
    · exact .inl h

theorem writes_saveAuthorizeInfo (r : Redis) (info : AuthorizeInfo) :
    Writes r (r.saveAuthorizeInfo info.token info.customerInfo info.scopes) [info] where
  scopes _ _ h := h
  entities token entity h := by
    by_cases htoken : token = info.token
    · subst htoken
      have hself : (r.saveAuthorizeInfo info.token info.customerInfo info.scopes).authorizeInfo
          info.token = some info.entity := Function.update_self ..
      rw [hself, Option.some.injEq] at h
      exact .inr ⟨info, List.mem_singleton.mpr rfl, rfl, h⟩
    · have hother : (r.saveAuthorizeInfo info.token info.customerInfo info.scopes).authorizeInfo
          token = r.authorizeInfo token := Function.update_of_ne htoken _ _
      rw [hother] at h
      exact .inl h

theorem writes_save (r : Redis) (info : AuthorizeInfo) : Writes r (r.save info) [info] where
  scopes := (writes_saveAuthorizeInfo r info).scopes
  entities := (writes_saveAuthorizeInfo r info).entities

theorem writes_generateRefreshToken (r : Redis) (oldRefreshToken : Option String) (userId : JLong)
    (token : String) (draw : Draw) :
    Writes r (r.generateRefreshToken oldRefreshToken userId token draw) [] := by
  unfold Redis.generateRefreshToken
  dsimp only
  split
  · exact ⟨(writes_refl r).scopes, (writes_refl r).entities⟩
  · have hdelete := writes_delete r (oldRefreshToken.getD "")
    exact ⟨hdelete.scopes, hdelete.entities⟩

/-! ## Exchanges of codes -/

section Exchange

variable (server : AuthServer) (request : AuthorizeTokenDTO) (draw : Draw) (r : Redis)

/-- What the next command of an exchange saves. -/
def Exchange.saving : Exchange → Option AuthorizeInfo
  | .scopesLoaded _ info token scopes =>
    some { userId := info.userId, token, customerInfo := some info.customerInfo, scopes }
  | _ => none

/-- What an exchange saves on its way. -/
def executeSaves : List AuthorizeInfo :=
  (List.range 7).filterMap fun k =>
    ((executeStep server request draw)^[k] (r, .requested)).2.saving

theorem writes_advance (e : Exchange) :
    Writes r (advance server request draw r e).1 e.saving.toList := by
  cases e with
  | requested =>
    rcases advance_requested server request draw r with ⟨_, h⟩ | ⟨_, _, _, _, _, h⟩ <;>
    · rw [h]
      exact writes_refl r
  | scopesLoaded client info token scopes =>
    exact writes_saveAuthorizeInfo r
      { userId := info.userId, token, customerInfo := some info.customerInfo, scopes }
  | idSaved client info token =>
    rcases advance_idSaved server request draw r client info token with ⟨_, h⟩ | h | h | h
    · rw [h]
      exact writes_refl r
    · rw [h]
      exact ⟨(writes_refl r).scopes, (writes_refl r).entities⟩
    · rw [h]
      exact writes_delete r _
    · rw [h]
      exact writes_delete r _
  | refreshSaved dto => exact writes_delete r _
  | codeRead | infoSaved | refreshDeleted | returned | thrown =>
    exact ⟨(writes_refl r).scopes, (writes_refl r).entities⟩

theorem writes_iterate (k : Nat) :
    Writes r ((executeStep server request draw)^[k] (r, .requested)).1
      ((List.range k).filterMap fun i =>
        ((executeStep server request draw)^[i] (r, .requested)).2.saving) := by
  induction k with
  | zero => exact writes_refl r
  | succ k ih =>
    rw [Function.iterate_succ_apply', List.range_succ, List.filterMap_append]
    apply ih.trans
    have hstep : Writes _ (executeStep server request draw
        ((executeStep server request draw)^[k] (r, .requested))).1 _ :=
      writes_advance server request draw _ _
    cases hsaving : ((executeStep server request draw)^[k] (r, .requested)).2.saving with
    | none =>
      rw [hsaving] at hstep
      simpa [hsaving] using hstep
    | some info =>
      rw [hsaving] at hstep
      simpa [hsaving] using hstep

/-- An exchange saves the scopes that were cached for its client and the user of the code. -/
theorem executeSaves_cached {info : AuthorizeInfo} (h : info ∈ executeSaves server request draw r) :
    (∃ client, server.findByClientId request.clientId = some client) ∧
      info.scopes = loadAuthorizedScope r request.clientId info.userId := by
  obtain ⟨k, -, hsaving⟩ := List.mem_filterMap.mp h
  have hremaining := remaining_iterate server request draw k (r, .requested)
  -- an exchange has loaded its scopes after two commands, and never again
  have hk : k ≤ 2 := by
    cases he : ((executeStep server request draw)^[k] (r, .requested)).2 with
    | scopesLoaded client info token scopes =>
      simp only [he, Exchange.remaining] at hremaining
      omega
    | requested | codeRead | infoSaved | idSaved | refreshDeleted | refreshSaved | returned |
      thrown => simp [he, Exchange.saving] at hsaving
  rcases advance_requested server request draw r
    with ⟨e, hfirst⟩ | ⟨client, code, cached, hcheck, -, hfirst⟩
  · have hone : executeStep server request draw (r, .requested) = (r, .thrown e) := hfirst
    obtain rfl | rfl | rfl : k = 0 ∨ k = 1 ∨ k = 2 := by omega
    · cases hsaving
    · rw [Function.iterate_one, hone] at hsaving
      cases hsaving
    · rw [Function.iterate_succ_apply, hone] at hsaving
      cases hsaving
  · refine ⟨⟨client, (checkClient_ok hcheck).1⟩, ?_⟩
    have hone : executeStep server request draw (r, .requested) = (r, .codeRead client cached) :=
      hfirst
    obtain rfl | rfl | rfl : k = 0 ∨ k = 1 ∨ k = 2 := by omega
    · cases hsaving
    · rw [Function.iterate_one, hone] at hsaving
      cases hsaving
    · rw [Function.iterate_succ_apply, hone] at hsaving
      cases hsaving
      rfl

end Exchange

/-! ## Token requests -/

section Requests

variable (server : TokenServer) (request : TokenRequest) (draw : Draw) (r : Redis)

/-- What a token request saves. -/
def saves : List AuthorizeInfo :=
  match request.grantType with
  | .authorization_code =>
    executeSaves server.toAuthServer request.toAuthorizeTokenDTO draw r
  | .refresh_token =>
    match checkRefresh server request r with
    | .error _ => []
    | .ok (client, old, user) =>
      [refreshInfo server request draw (r.deleteAuthorizeInfo old.accessToken) client user]
  | .password =>
    match checkPassword server request with
    | .error _ => []
    | .ok (client, user, scopes) => [passwordInfo server request draw client user scopes]
  | .client_credentials =>
    match checkCredentials server request with
    | .error _ => []
    | .ok client => [credentialsInfo server request draw client]
  | .implicit => []

theorem writes_token : Writes r (token server request draw r).1 (saves server request draw r) := by
  unfold token saves
  cases request.grantType with
  | authorization_code => exact writes_iterate server.toAuthServer request.toAuthorizeTokenDTO draw r 7
  | refresh_token =>
    simp only [refresh]
    cases checkRefresh server request r with
    | error e => exact writes_refl r
    | ok checked =>
      obtain ⟨client, old, user⟩ := checked
      have hsave := (writes_delete r (AUTHORIZE_INFO_PREFIX ++ old.accessToken)).trans
        (writes_save (r.deleteAuthorizeInfo old.accessToken)
          (refreshInfo server request draw (r.deleteAuthorizeInfo old.accessToken) client user))
      dsimp only
      split
      · exact hsave
      · split
        · have hlast := hsave.trans (writes_generateRefreshToken _ request.refreshToken user.id
            (refreshInfo server request draw (r.deleteAuthorizeInfo old.accessToken) client
              user).token draw)
          exact hlast
        · exact hsave
  | password =>
    simp only [passwordGrant]
    cases checkPassword server request with
    | error e => exact writes_refl r
    | ok checked => exact writes_save r _
  | client_credentials =>
    simp only [clientCredentials]
    cases checkCredentials server request with
    | error e => exact writes_refl r
    | ok client => exact writes_save r _
  | implicit => exact writes_refl r

end Requests

end BigPlan.Auth
