import BigPlan.Auth.CodeExchange
import BigPlan.Lib.Runs

/-!
# One code, one token

Any number of exchanges advance one command at a time, in any order, while entries
expire. Reading the code does not take it, so two exchanges that read it before one
deletes it both return. Where no exchange reads a code that another one holds, a code
is worth one token.
-/
namespace BigPlan.Auth

open Lib.Java Lib.Runs

structure Exchanges (n : Nat) where
  redis : Redis
  exchanges : Fin n → Exchange

inductive ExchangeAction (n : Nat) where
  | advance (i : Fin n) (draw : Draw)
  | expire (key : String)
  deriving DecidableEq, Repr

namespace Exchanges

variable {n : Nat}

def step (server : AuthServer) (requests : Fin n → AuthorizeTokenDTO) (s : Exchanges n) :
    ExchangeAction n → Exchanges n
  | .advance i draw =>
    let (redis, exchange) := advance server (requests i) draw s.redis (s.exchanges i)
    { redis, exchanges := Function.update s.exchanges i exchange }
  | .expire key => { s with redis := s.redis.delete key }

def start (redis : Redis) : Exchanges n := { redis, exchanges := fun _ => .requested }

/-- No two exchanges of one code have returned. -/
def AtMostOneToken (requests : Fin n → AuthorizeTokenDTO) (s : Exchanges n) : Prop :=
  ∀ i j dto dto', s.exchanges i = .returned dto → s.exchanges j = .returned dto' →
    (requests i).code = (requests j).code → i = j

end Exchanges

/-- The exchange has read its code and not deleted it yet. -/
def Exchange.holding : Exchange → Bool
  | .requested | .returned _ | .thrown _ => false
  | _ => true

def Exchange.succeeded : Exchange → Bool
  | .returned _ => true
  | _ => false

/-- An exchange that finds its code does so while no other one holds that code. -/
def Exclusive {n : Nat} (requests : Fin n → AuthorizeTokenDTO) (s : Exchanges n) :
    ExchangeAction n → Prop
  | .advance i _ =>
    s.exchanges i = .requested → (s.redis.getCode ((requests i).code.getD "")).isSome →
      ∀ j, (s.exchanges j).holding → (requests j).code ≠ (requests i).code
  | .expire _ => True

instance {n : Nat} (requests : Fin n → AuthorizeTokenDTO) (s : Exchanges n)
    (a : ExchangeAction n) : Decidable (Exclusive requests s a) := by
  unfold Exclusive
  split <;> infer_instance

/-! ## Codes and commands -/

section Command

variable (server : AuthServer) (request : AuthorizeTokenDTO) (draw : Draw) (r : Redis)

/-- An exchange comes to hold a code only by finding it. -/
theorem holding_advance {e : Exchange} (h : (advance server request draw r e).2.holding = true) :
    e.holding = true ∨ e = .requested ∧ (r.getCode (request.code.getD "")).isSome := by
  cases e with
  | requested =>
    rcases advance_requested server request draw r with
      ⟨_, heq⟩ | ⟨_, code, info, hcheck, hcode, _⟩
    · rw [heq] at h
      cases h
    · refine .inr ⟨rfl, ?_⟩
      rw [(checkClient_ok hcheck).2.2, Option.getD_some, hcode]
      rfl
  | returned | thrown => cases h
  | codeRead | scopesLoaded | infoSaved | idSaved | refreshDeleted | refreshSaved =>
    exact .inl rfl

/-- An exchange succeeds by deleting the code that it held. -/
theorem succeeded_advance {e : Exchange}
    (h : (advance server request draw r e).2.succeeded = true) :
    e.succeeded = true ∧ (advance server request draw r e).1 = r ∨
      e.holding = true ∧
        (advance server request draw r e).1.getCode (request.code.getD "") = none := by
  cases e with
  | requested =>
    rcases advance_requested server request draw r with
      ⟨_, heq⟩ | ⟨_, _, _, _, _, heq⟩
    · rw [heq] at h
      cases h
    · rw [heq] at h
      cases h
  | idSaved client info token =>
    refine .inr ⟨rfl, ?_⟩
    rcases advance_idSaved server request draw r client info token with
      ⟨_, heq⟩ | heq | heq | heq
    · rw [heq] at h
      cases h
    · rw [heq] at h
      cases h
    · rw [heq] at h
      cases h
    · rw [heq]
      exact Redis.deleteCode_self r _
  | refreshSaved dto => exact .inr ⟨rfl, Redis.deleteCode_self r _⟩
  | returned dto => exact .inl ⟨rfl, rfl⟩
  | codeRead | scopesLoaded | infoSaved | refreshDeleted | thrown => cases h

end Command

/-! ## Interleaved exchanges -/

namespace Exchanges

variable {n : Nat} {server : AuthServer} {requests : Fin n → AuthorizeTokenDTO} {s : Exchanges n}

/-- Commands of one exchange in a row are those of `execute`. -/
theorem run_advance (s : Exchanges n) (i : Fin n) (draw : Draw) (k : Nat) :
    ((run (step server requests) s (List.replicate k (.advance i draw))).redis,
      (run (step server requests) s (List.replicate k (.advance i draw))).exchanges i) =
        (executeStep server (requests i) draw)^[k] (s.redis, s.exchanges i) := by
  induction k generalizing s with
  | zero => rfl
  | succ k ih =>
    rw [List.replicate_succ, run_cons, ih, Function.iterate_succ_apply]
    simp only [step, executeStep, Function.update_self]

/-- The exchange holds its code, or has turned it into a token. -/
def Engaged (s : Exchanges n) (i : Fin n) : Prop :=
  (s.exchanges i).holding = true ∨ (s.exchanges i).succeeded = true

/-- A code engages one exchange at a time, and is gone once the exchange has succeeded. -/
structure Claimed (requests : Fin n → AuthorizeTokenDTO) (s : Exchanges n) : Prop where
  alone : ∀ i j, s.Engaged i → s.Engaged j → (requests i).code = (requests j).code → i = j
  spent : ∀ i, (s.exchanges i).succeeded = true →
    s.redis.getCode ((requests i).code.getD "") = none

theorem getCode_of_noNewCode {r r' : Redis} (h : r.NoNewCode r') {code : String}
    (hnone : r.getCode code = none) : r'.getCode code = none := by
  cases hcode : r'.getCode code with
  | none => rfl
  | some info => exact nomatch (h code info hcode).symm.trans hnone

/-- A step engages only the exchange that takes it: it was engaged before, or finds its
code. -/
theorem engaged_step {k j : Fin n} {draw : Draw}
    (h : (step server requests s (.advance k draw)).Engaged j) :
    s.Engaged j ∨ j = k ∧ s.exchanges k = .requested ∧
      (s.redis.getCode ((requests k).code.getD "")).isSome := by
  by_cases hjk : j = k
  · subst hjk
    simp only [Engaged, step, Function.update_self] at h
    rcases h with h | h
    · rcases holding_advance server (requests j) draw s.redis h with h | h
      · exact .inl (.inl h)
      · exact .inr ⟨rfl, h⟩
    · rcases succeeded_advance server (requests j) draw s.redis h with h | h
      · exact .inl (.inr h.1)
      · exact .inl (.inl h.1)
  · simp only [Engaged, step, Function.update_of_ne hjk] at h
    exact .inl h

/-- An exchange that finds its code exclusively is the only one engaged by it. -/
theorem Claimed.unengaged (h : s.Claimed requests) {k j : Fin n} {draw : Draw}
    (hG : Exclusive requests s (.advance k draw)) (hk : s.exchanges k = .requested)
    (hfound : (s.redis.getCode ((requests k).code.getD "")).isSome)
    (hj : s.Engaged j) : (requests j).code ≠ (requests k).code := by
  rcases hj with hj | hj
  · exact hG hk hfound j hj
  · intro hcode
    have hspent := h.spent j hj
    rw [hcode] at hspent
    simp [hspent] at hfound

theorem claimed_step {a : ExchangeAction n} (h : s.Claimed requests)
    (hG : Exclusive requests s a) : (step server requests s a).Claimed requests := by
  cases a with
  | advance k draw =>
    have hnew := noNewCode_advance server (requests k) draw s.redis (s.exchanges k)
    constructor
    · intro i j hi hj hcode
      rcases engaged_step hi with hi' | ⟨rfl, hik, hfound⟩ <;>
        rcases engaged_step hj with hj' | ⟨rfl, hjk, hfound⟩
      · exact h.alone i j hi' hj' hcode
      · exact (h.unengaged hG hjk hfound hi' hcode).elim
      · exact (h.unengaged hG hik hfound hj' hcode.symm).elim
      · rfl
    · intro i hi
      by_cases hik : i = k
      · subst hik
        simp only [step, Function.update_self] at hi
        rcases succeeded_advance server (requests i) draw s.redis hi with ⟨hbefore, hr⟩ | h'
        · simp only [step]
          rw [hr]
          exact h.spent i hbefore
        · exact h'.2
      · simp only [step, Function.update_of_ne hik] at hi
        exact getCode_of_noNewCode hnew (h.spent i hi)
  | expire key =>
    exact ⟨h.alone, fun i hi =>
      getCode_of_noNewCode (Redis.noNewCode_delete s.redis key) (h.spent i hi)⟩

theorem claimed_start (redis : Redis) : (start redis : Exchanges n).Claimed requests := by
  constructor
  · intro i j hi
    rcases hi with h | h <;> cases h
  · intro i h
    cases h

theorem Claimed.atMostOneToken (h : s.Claimed requests) : s.AtMostOneToken requests := by
  intro i j dto dto' hi hj hcode
  refine h.alone i j (.inr ?_) (.inr ?_) hcode
  · rw [hi]
    rfl
  · rw [hj]
    rfl

/-- In every run in which codes are found exclusively, no two exchanges of one code
return. -/
theorem atMostOneToken_of_exclusive (server : AuthServer)
    (requests : Fin n → AuthorizeTokenDTO) (redis : Redis) (actions : List (ExchangeAction n))
    (h : Along (step server requests) (Exclusive requests) (start redis) actions) :
    Throughout (step server requests) (AtMostOneToken requests) (start redis) actions :=
  (throughout_of_along (fun _ _ => claimed_step) (claimed_start redis) h).mono
    fun _ => Claimed.atMostOneToken

end Exchanges

def twoRequests : Fin 2 → AuthorizeTokenDTO := fun _ =>
  { grantType := .authorization_code, clientId := some "ac", clientSecret := some "s"
    code := some "c", refreshToken := none }

def oneClient : ClientDetails :=
  { id := 1, clientId := "ac", secret := "s", grantTypes := some "authorization_code,refresh_token"
    scopes := some "a:b", redirectUrl := none, timeout := 7200000, refreshTokenTimeout := 86400000
    autoGrant := true, privateKey := none }

/-- One client; passwords are kept as they are, and tokens are not signed. -/
def oneClientServer : AuthServer where
  findByClientId clientId := if clientId = some "ac" then some oneClient else none
  findByUserIdAndClientId _ _ := true
  passwordMatches password secret := password == some secret
  generateToken certification expiration := stringOf certification.name ++ "." ++ longToString expiration

/-- The code was issued to user 7. -/
def issuedCode : Redis :=
  { codeCache := fun code => if code = "c" then some ⟨7, "u", []⟩ else none }

/-- The next command of an exchange at a time of the clock. -/
def commandAt (i : Fin 2) (seconds : Nat) : ExchangeAction 2 :=
  .advance i { currentTimeMillis := BitVec.ofNat 64 (1000 * seconds), uuid := toString seconds }

namespace Exchanges

/-- The second exchange comes after the first one, and finds no code. -/
theorem atMostOneToken_inTurn :
    Throughout (step oneClientServer twoRequests) (AtMostOneToken twoRequests) (start issuedCode)
      ((List.range 6).map (commandAt 0) ++ [commandAt 1 9]) ∧
    (run (step oneClientServer twoRequests) (start issuedCode)
      ((List.range 6).map (commandAt 0) ++ [commandAt 1 9])).exchanges 1 =
        .thrown (.business .ERROR_CODE) :=
  ⟨atMostOneToken_of_exclusive oneClientServer twoRequests issuedCode _ (by decide +kernel),
    by decide +kernel⟩

/-- Both exchanges read the code before either of them deletes it. -/
theorem two_tokens :
    ¬ ∀ (n : Nat) (server : AuthServer) (requests : Fin n → AuthorizeTokenDTO) (redis : Redis)
      (actions : List (ExchangeAction n)),
      Throughout (step server requests) (AtMostOneToken requests) (start redis) actions := by
  intro h
  have hrun := (h 2 oneClientServer twoRequests issuedCode ([commandAt 0 1, commandAt 1 2] ++
    List.replicate 5 (commandAt 0 3) ++ List.replicate 5 (commandAt 1 4))).last
  have hsame := hrun 0 1
    { accessToken := "u.7203000", refreshToken := some "3", expiresIn := 7200000 }
    { accessToken := "u.7204000", refreshToken := some "4", expiresIn := 7200000 }
    (by decide +kernel) (by decide +kernel) rfl
  exact absurd hsame (by decide)

end Exchanges

end BigPlan.Auth
