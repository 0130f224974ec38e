import BigPlan.Auth.ScopeText
import BigPlan.Lib.Runs
import BigPlan.Vertx.SaveFind

/-!
# The check of a token

`LocalAsyncSecurityChecker` as a machine that waits for one answer of Redis after the
other. An exception in a callback ends the check without an answer: only the part before
the first request is inside the `try`.
-/
namespace BigPlan.Auth

open Lib.Java Lib.Runs Vertx

structure CertificationImpl where
  id : Option JLong
  roleId : Option JLong
  name : Option String
  clientId : Option String
  sign : Option Bool
  deriving DecidableEq, Repr

structure AuthorizeInfoDTO where
  scopes : List String
  customerInfo : Option CustomerInfo
  deriving DecidableEq, Repr

/-- What the checker calls: `JwtUtils.parseToken`, the two uses of `JSON.parseObject`, and
the client of Redis. An exception is `none`, and so is `null` for a certification, whose
fields are read at once. -/
structure CheckServices where
  parseToken : String → Option String
  parseCertification : String → Option CertificationImpl
  parseCustomerInfo : String → Option (Option CustomerInfo)
  client : Client

def authorizeInfo : RedisEntityDescriptor where
  key := "tb_authorize_info"
  fields := [⟨"id", .string⟩, ⟨"scopes", .string⟩, ⟨"customerInfo", .string⟩]
  idField := ⟨"id", .string⟩
  id_mem := by decide
  names_nodup := by decide

/-- How a request to Redis ends. It is answered from what the keys hold at that time. -/
inductive RedisReply where
  | success (r : Vertx.Redis)
  | failure

/-- What is found, unless the request fails, as it also does where the key holds no hash. -/
def RedisReply.found {client : Client} (find : Vertx.Redis → Option (Entity client)) :
    RedisReply → Option (Entity client)
  | .success r => find r
  | .failure => none

inductive Waiting where
  | authorizeInfo (certification : CertificationImpl)
  | roleScopes (roleId : JLong) (accessCard : AccessCard)
  | nothing
  deriving DecidableEq, Repr

inductive Completion where
  | complete (accessCard : Option AccessCard)
  | fail
  deriving DecidableEq, Repr

structure TokenCheck where
  waiting : Waiting
  /-- The calls of `complete` and `fail` on the promise. -/
  completions : List Completion
  deriving DecidableEq, Repr

namespace TokenCheck

variable (services : CheckServices)

/-- The text of a field. -/
def textOf (entity : Entity services.client) (f : Field) : Option String :=
  (entity f).map services.client.text

/-- `AsyncRedisAuthorizeInfoManager.get` after its request: the inner `none` is the `null`
for an entity without an id. -/
def getAuthorizeInfo (entity : Entity services.client) : Option (Option AuthorizeInfoDTO) :=
  match textOf services entity ⟨"id", .string⟩ with
  | none => some none
  | some _ =>
    match textOf services entity ⟨"scopes", .string⟩ with
    | none => none
    | some scopes =>
      match textOf services entity ⟨"customerInfo", .string⟩ with
      | none => some (some { scopes := splitComma scopes, customerInfo := none })
      | some text => (services.parseCustomerInfo text).map fun customerInfo =>
        some { scopes := splitComma scopes, customerInfo }

def done (s : TokenCheck) (completion : Completion) : TokenCheck :=
  { waiting := .nothing, completions := s.completions ++ [completion] }

/-- The promise is left as it is. -/
def thrown (s : TokenCheck) : TokenCheck := { s with waiting := .nothing }

/-- `checking` up to its first request. -/
def checking (token : String) : TokenCheck :=
  let s : TokenCheck := { waiting := .nothing, completions := [] }
  match services.parseToken token with
  | none => s.done (.complete none)
  | some content =>
    match services.parseCertification content with
    | none => s.done .fail
    | some certification => { s with waiting := .authorizeInfo certification }

def buildCard (certification : CertificationImpl) (dto : AuthorizeInfoDTO) : AccessCard :=
  { userId := certification.id
    username := certification.name
    customerInfo := dto.customerInfo
    authorities := some (dto.scopes.filter fun scope => !isBlank (some scope))
    clientId := certification.clientId
    sign := certification.sign }

/-- The card with the scopes of the role on top of its own. -/
def addRoleScopes (accessCard : AccessCard) (entity : Entity services.client) : AccessCard :=
  { accessCard with
    authorities := accessCard.authorities.map (· ++
      splitScopes (textOf services entity ⟨"scopes", .string⟩)) }

def onAuthorizeInfo (s : TokenCheck) (certification : CertificationImpl) :
    Option (Option AuthorizeInfoDTO) → TokenCheck
  | none => s.thrown
  -- the scopes of `null` are asked for
  | some none => s.thrown
  | some (some dto) =>
    let accessCard := buildCard certification dto
    match certification.roleId with
    | some roleId => { s with waiting := .roleScopes roleId accessCard }
    | none => s.done (.complete (some accessCard))

def step (token : String) (s : TokenCheck) (reply : RedisReply) : TokenCheck :=
  match s.waiting with
  | .nothing => s
  | .authorizeInfo certification =>
    match reply.found fun r => authorizeInfo.findById services.client r token with
    | none => s.done .fail
    | some entity => s.onAuthorizeInfo certification (getAuthorizeInfo services entity)
  | .roleScopes roleId accessCard =>
    match reply.found fun r => roleScopes.findById services.client r (longToString roleId) with
    | none => s.done (.complete (some accessCard))
    | some entity => s.done (.complete (some (addRoleScopes services accessCard entity)))

/-- What `LocalSecurityChecker.checking` returns. It waits as long as this is `none`. -/
def returned (s : TokenCheck) : Option (Option AccessCard) :=
  match s.completions with
  | [] => none
  | .complete accessCard :: _ => some accessCard
  | .fail :: _ => some none

/-- A check that gets this first reply is answered: nothing is asked, the request fails, or
the authorize info has an id and scopes, and its customer info can be parsed. -/
def Answered (token : String) (reply : RedisReply) : Prop :=
  (services.parseToken token).bind services.parseCertification = none ∨
    match reply.found fun r => authorizeInfo.findById services.client r token with
    | none => True
    | some entity =>
      textOf services entity ⟨"id", .string⟩ ≠ none ∧
        textOf services entity ⟨"scopes", .string⟩ ≠ none ∧
        ∀ text, textOf services entity ⟨"customerInfo", .string⟩ = some text →
          services.parseCustomerInfo text ≠ none

variable {services} {s : TokenCheck} {token : String}

/-- Nothing has been completed as long as a reply is awaited, and no more than once after. -/
def Once (s : TokenCheck) : Prop :=
  s.completions.length ≤ 1 ∧ (s.waiting ≠ .nothing → s.completions = [])

theorem once_done (h : s.completions = []) (completion : Completion) : (s.done completion).Once :=
  ⟨by simp [done, h], fun hwaiting => absurd rfl hwaiting⟩

theorem once_checking (token : String) : (checking services token).Once := by
  unfold checking
  split
  · exact once_done rfl _
  · split
    · exact once_done rfl _
    · exact ⟨Nat.zero_le _, fun _ => rfl⟩

theorem once_step (h : s.Once) (reply : RedisReply) : (step services token s reply).Once := by
  unfold step
  split
  · exact h
  · rename_i certification hwaiting
    have hnone : s.completions = [] := h.2 (by simp [hwaiting])
    split
    · exact once_done hnone _
    · unfold onAuthorizeInfo
      split
      · exact ⟨h.1, fun hne => absurd rfl hne⟩
      · exact ⟨h.1, fun hne => absurd rfl hne⟩
      · dsimp only
        split
        · exact ⟨h.1, fun _ => hnone⟩
        · exact once_done hnone _
  · rename_i hwaiting
    split
    · exact once_done (h.2 (by simp [hwaiting])) _
    · exact once_done (h.2 (by simp [hwaiting])) _

theorem run_of_nothing (h : s.waiting = .nothing) (replies : List RedisReply) :
    run (step services token) s replies = s := by
  induction replies with
  | nil => rfl
  | cons reply replies ih =>
    have hstep : step services token s reply = s := by simp only [step, h]
    rw [run_cons, hstep, ih]

/-- What is read of the authorize info, by the callbacks' own cases. -/
theorem getAuthorizeInfo_isSome (entity : Entity services.client) :
    (∃ dto, getAuthorizeInfo services entity = some (some dto)) ↔
      textOf services entity ⟨"id", .string⟩ ≠ none ∧
        textOf services entity ⟨"scopes", .string⟩ ≠ none ∧
        ∀ text, textOf services entity ⟨"customerInfo", .string⟩ = some text →
          services.parseCustomerInfo text ≠ none := by
  unfold getAuthorizeInfo
  cases textOf services entity ⟨"id", .string⟩ with
  | none => simp
  | some id =>
    cases textOf services entity ⟨"scopes", .string⟩ with
    | none => simp
    | some scopes =>
      cases textOf services entity ⟨"customerInfo", .string⟩ with
      | none => simp
      | some text => cases hparse : services.parseCustomerInfo text <;> simp [hparse]

/-- After the first reply, the check is lost, or it is over with one answer, or it waits
for the scopes of the role, and then it cannot be lost any more. -/
theorem completions_of_replies (first second : RedisReply) (rest : List RedisReply) :
    (run (step services token) (checking services token) (first :: second :: rest)).completions.length =
      1 ↔ Answered services token first := by
  have hdone (s : TokenCheck) (h : s.completions = []) (completion : Completion)
      (replies : List RedisReply) :
      (run (step services token) (s.done completion) replies).completions.length = 1 := by
    rw [run_of_nothing rfl]
    simp [done, h]
  unfold Answered checking
  cases hparse : services.parseToken token with
  | none => exact iff_of_true (hdone _ rfl _ _) (.inl rfl)
  | some content =>
    cases hcertification : services.parseCertification content with
    | none =>
      simp only [Option.bind_some, hcertification, true_or, iff_true]
      exact hdone _ rfl _ _
    | some certification =>
      simp only [Option.bind_some, hcertification, reduceCtorEq, false_or]
      rw [run_cons]
      dsimp only [step]
      cases first.found fun r => authorizeInfo.findById services.client r token with
      | none => exact iff_of_true (hdone _ rfl _ _) trivial
      | some entity =>
        dsimp only
        rw [← getAuthorizeInfo_isSome]
        cases hget : getAuthorizeInfo services entity with
        | none =>
          rw [onAuthorizeInfo, run_of_nothing rfl]
          simp [thrown]
        | some dto =>
          cases dto with
          | none =>
            rw [onAuthorizeInfo, run_of_nothing rfl]
            simp [thrown]
          | some dto =>
            refine iff_of_true ?_ ⟨dto, rfl⟩
            cases hrole : certification.roleId with
            | none =>
              simp only [onAuthorizeInfo, hrole]
              exact hdone _ rfl _ _
            | some roleId =>
              simp only [onAuthorizeInfo, hrole]
              rw [run_cons]
              dsimp only [step]
              cases second.found fun r =>
                roleScopes.findById services.client r (longToString roleId) with
              | none => exact hdone _ rfl _ _
              | some entity => exact hdone _ rfl _ _

/-- A reply ends the waiting, or it is for the authorize info and the role is asked for. -/
theorem waiting_step (services : CheckServices) (token : String) (s : TokenCheck)
    (reply : RedisReply) :
    (step services token s reply).waiting = .nothing ∨
      ((∃ certification, s.waiting = .authorizeInfo certification) ∧
        ∃ roleId accessCard, (step services token s reply).waiting = .roleScopes roleId accessCard) := by
  cases hwaiting : s.waiting with
  | nothing => exact .inl (by simp only [step, hwaiting])
  | roleScopes roleId accessCard =>
    simp only [step, hwaiting]
    split
    · exact .inl rfl
    · exact .inl rfl
  | authorizeInfo certification =>
    simp only [step, hwaiting]
    split
    · exact .inl rfl
    · unfold onAuthorizeInfo
      split
      · exact .inl rfl
      · exact .inl rfl
      · split
        · exact .inr ⟨⟨certification, rfl⟩, _, _, rfl⟩
        · exact .inl rfl

theorem waiting_of_replies (s : TokenCheck) (first second : RedisReply) (rest : List RedisReply) :
    (run (step services token) s (first :: second :: rest)).waiting = .nothing := by
  have htwo : (step services token (step services token s first) second).waiting = .nothing := by
    rcases waiting_step services token s first with hfirst | ⟨-, roleId, accessCard, hfirst⟩
    · have hsame : step services token (step services token s first) second =
          step services token s first := run_of_nothing hfirst [second]
      rw [hsame, hfirst]
    · rcases waiting_step services token (step services token s first) second with
        hsecond | ⟨⟨certification, hne⟩, -⟩
      · exact hsecond
      · rw [hfirst] at hne
        cases hne
  rw [run_cons, run_cons, run_of_nothing htwo]
  exact htwo

theorem returned_isSome (s : TokenCheck) : s.returned.isSome = true ↔ s.completions ≠ [] := by
  unfold returned
  split <;> simp_all

/-- The check is never answered twice. Once no reply is awaited any more, it was answered,
and the caller's loop has ended, exactly if the first reply has let it. -/
theorem answered_once_iff (services : CheckServices) (token : String) (first second : RedisReply)
    (rest : List RedisReply) :
    (∀ replies, (run (step services token) (checking services token) replies).completions.length ≤ 1) ∧
      (run (step services token) (checking services token) (first :: second :: rest)).waiting =
        .nothing ∧
      ((run (step services token) (checking services token)
        (first :: second :: rest)).completions.length = 1 ↔ Answered services token first) ∧
      ((run (step services token) (checking services token)
        (first :: second :: rest)).returned.isSome = true ↔ Answered services token first) := by
  have honce (replies : List RedisReply) :
      (run (step services token) (checking services token) replies).Once := by
    refine invariant_run (P := Once) ?_ (once_checking token) replies
    intro s reply h
    exact once_step h reply
  refine ⟨fun replies => (honce replies).1, waiting_of_replies _ first second rest,
    completions_of_replies first second rest, ?_⟩
  rw [returned_isSome, ← completions_of_replies first second rest, ← List.length_pos_iff]
  have hle := (honce (first :: second :: rest)).1
  omega

/-- A server that knows one token, whose certification names no role. -/
def oneToken : CheckServices where
  parseToken token := if token = "t" then some "c" else none
  parseCertification content :=
    if content = "c" then
      some { id := some 7, roleId := none, name := some "u", clientId := some "a", sign := some false }
    else none
  parseCustomerInfo _ := some none
  client := textClient

/-- The authorize info of a valid token is gone, and the check is never answered. -/
theorem not_answered_deleted :
    ¬ ∀ (services : CheckServices) (token : String) (first second : RedisReply)
      (rest : List RedisReply),
      (run (step services token) (checking services token) (first :: second :: rest)).completions.length
        = 1 := by
  intro h
  have hone := h oneToken "t" (.success noKeys) .failure []
  exact absurd hone (by decide +kernel)

end TokenCheck

end BigPlan.Auth
