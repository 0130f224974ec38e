import BigPlan.Sms.SmsFrequency

/-!
# Calls that fail

One call alone, in steps between which time passes. A call that throws before anything is sent
to the gateway is to leave the keys as they were; the script writes a key before its last
command can fail.
-/
namespace BigPlan.Sms

open Lib (Expiring)
open Lib.Runs
open Sending (business)

/-- What `SETEX` takes for a lifetime at this time. -/
def Settable (now : ℕ) (seconds : Int) : Prop := 0 < seconds ∧ now + 1000 * seconds < 2 ^ 63

instance (now : ℕ) (seconds : Int) : Decidable (Settable now seconds) :=
  inferInstanceAs (Decidable (0 < seconds ∧ now + 1000 * seconds < 2 ^ 63))

/-- Each key can be set for an execution that sets the first. -/
def Argv.Settable (argv : Argv) (now : ℕ) (redis : Redis) : Prop :=
  redis.get now argv.keyForInIntervals = none → Sms.Settable now argv.intervals →
    argv.type = "0" → Sms.Settable now argv.effectiveTime

instance (argv : Argv) (now : ℕ) (redis : Redis) : Decidable (argv.Settable now redis) :=
  inferInstanceAs (Decidable (_ → _ → _ → _))

/-- The same keys are there from now on. -/
def SameKeys (now : ℕ) (redis redis' : Redis) : Prop :=
  ∀ later, now ≤ later → ∀ key, (redis.get later key).isSome = (redis'.get later key).isSome

namespace World

variable (w : World Unit)

/-- One call at its start. -/
def alone (outside : Outside) (vo : SendSmsVO) (now : ℕ) (redis : Redis) : World Unit :=
  start (fun _ => outside) (fun _ => vo) now redis

/-- If the call has thrown and nothing was sent, the keys are those before it. -/
def BlocksNobody (redis₀ : Redis) : Prop :=
  ∀ e, w.calls () = .ended (.error e) → w.sent = [] → SameKeys w.now w.redis redis₀

/-- No execution fails after it has set a key, and a request for accepted numbers is complete. -/
def Keeps : Event Unit → Prop
  | .turn _ _ =>
    match w.calls () with
    | .execute argv _ => argv.Settable w.now w.redis
    | .getResponse request _ => request.checkQueryParameters = true ∨ w.accepted = []
    | .ended _ => True
  | _ => True

instance (event : Event Unit) : Decidable (w.Keeps event) := by
  unfold Keeps
  split
  · split <;> infer_instance
  · infer_instance

end World

section Steps

variable {now : ℕ} {redis : Redis} {argv : Argv} {vo : SendSmsVO} {template : SmsTemplatePO}
  {code : Option String}

/-- An execution that can set both keys leaves them alone if it fails. -/
theorem execute_of_settable (h : argv.Settable now redis)
    (hresult : (execute now redis argv).2 = "9999") : (execute now redis argv).1 = redis := by
  unfold execute sendSmsLua at hresult ⊢
  dsimp only at hresult ⊢
  split at hresult
  · simp at hresult
  · rename_i hnone
    rw [Bool.not_eq_true, Option.isSome_eq_false_iff, Option.isNone_iff_eq_none] at hnone
    rw [if_neg (by simp [hnone])]
    split at hresult
    · rfl
    · rename_i redis' hset
      obtain ⟨hsettable, -⟩ := SETEX_eq_some.mp hset
      split at hresult
      · rename_i htype
        have hcode : SETEX now redis' argv.keyForSaveVerifyCodes argv.effectiveTime
            argv.verifyCode = some _ := SETEX_eq_some.mpr ⟨h hnone hsettable htype, rfl⟩
        rw [hcode] at hresult
        simp at hresult
      · simp at hresult

theorem exists_argvOf_of_ok {phoneNumber phoneNumber' : String}
    (h : argvOf vo template code phoneNumber = .ok argv) :
    ∃ argv, argvOf vo template code phoneNumber' = .ok argv := by
  unfold argvOf at h ⊢
  split at h
  · exact ⟨_, rfl⟩
  · cases h

/-- The rest of a call after the result for a number. -/
def goOn (vo : SendSmsVO) (template : SmsTemplatePO) (code : Option String) (phoneNumber : String)
    (rest willSend : List String) (result : String) : Sending :=
  if isCode template ∧ result = "1" then business .SEND_FREQUENTLY
  else if result = "0" then sendAll vo template code rest (willSend ++ [phoneNumber])
  else sendAll vo template code rest willSend

theorem sendAll_cons {phoneNumber : String} {rest willSend : List String}
    (h : argvOf vo template code phoneNumber = .ok argv) :
    sendAll vo template code (phoneNumber :: rest) willSend =
      .execute argv (goOn vo template code phoneNumber rest willSend) := by
  rw [sendAll, h]
  rfl

theorem not_checkQueryParameters_nil : (requestOf vo []).checkQueryParameters = false := by
  have hempty : (",".intercalate ([] : List String)) = "" := rfl
  simp [SendSmsRequest.checkQueryParameters, requestOf, hempty, Lib.Java.isBlank]

end Steps

namespace World

/-! ## The call on its way -/

section Way

variable {vo : SendSmsVO} {redis₀ : Redis} {w : World Unit}

/-- Where a call is for which nothing was accepted. -/
inductive Unaccepted (vo : SendSmsVO) : Sending → Prop
  | sending {template : SmsTemplatePO} {code : Option String} {rest : List String}
      (hcode : isCode template = true → rest.length ≤ 1) :
      Unaccepted vo (sendAll vo template code rest [])
  | ended {result : Except Thrown (Option String)} : Unaccepted vo (.ended result)

/-- Nothing was accepted and the keys are as before, or the call goes on to its request, or the
request was sent. -/
inductive Keeping (vo : SendSmsVO) (redis₀ : Redis) (w : World Unit) : Prop
  | unaccepted (hcall : Unaccepted vo (w.calls ())) (haccepted : w.accepted = [])
      (hsame : ∀ later, w.now ≤ later → ∀ key, w.redis.get later key = redis₀.get later key)
  | accepted {template : SmsTemplatePO} {code : Option String} {rest willSend : List String}
      (hcall : w.calls () = sendAll vo template code rest willSend) (haccepted : w.accepted ≠ [])
      (hargv : ∀ phoneNumber, ∃ argv, argvOf vo template code phoneNumber = .ok argv)
      (hcode : isCode template = true → rest = [])
  | sent (hsent : w.sent ≠ [])

theorem Keeping.blocksNobody (h : Keeping vo redis₀ w) : w.BlocksNobody redis₀ := by
  intro e hended hnone
  cases h with
  | unaccepted _ _ hsame =>
    intro later hle key
    rw [hsame later hle key]
  | sent hsent => exact absurd hnone hsent
  | @accepted _ _ rest _ hcall _ hargv _ =>
    rw [hcall] at hended
    cases rest with
    | nil => cases hended
    | cons phoneNumber rest =>
      obtain ⟨argv, hargv⟩ := hargv phoneNumber
      simp only [sendAll, hargv] at hended
      cases hended

theorem unaccepted_sendSms (outside : Outside) (vo : SendSmsVO) :
    Unaccepted vo (sendSms outside vo) := by
  unfold sendSms
  split
  · exact .ended
  · split
    · exact .ended
    · split
      · exact .ended
      · split
        · exact .ended
        · rename_i hsingle
          split
          · exact .ended
          · exact .sending fun hcode => not_lt.mp fun hlt => hsingle ⟨hcode, hlt⟩

theorem keeping_alone (outside : Outside) (vo : SendSmsVO) (now : ℕ) (redis : Redis) :
    Keeping vo redis (alone outside vo now redis) :=
  .unaccepted (unaccepted_sendSms outside vo) rfl fun _ _ _ => rfl

theorem calls_runScript (w : World Unit) (argv : Argv) (next : String → Sending) :
    (w.runScript () argv next).calls () = next (execute w.now w.redis argv).2 := by
  unfold runScript
  exact Function.update_self () _ w.calls

/-- An accepted number stays accepted, and a notice is never refused. -/
theorem keeping_runScript_accepted {template : SmsTemplatePO} {code : Option String}
    {phoneNumber : String} {rest willSend : List String} {argv : Argv} (haccepted : w.accepted ≠ [])
    (hargv : ∀ phoneNumber, ∃ argv, argvOf vo template code phoneNumber = .ok argv)
    (hcode : isCode template = true → phoneNumber :: rest = []) :
    Keeping vo redis₀ (w.runScript () argv (goOn vo template code phoneNumber rest willSend)) := by
  have hnot : ¬ isCode template = true := fun htemplate => List.cons_ne_nil _ _ (hcode htemplate)
  have hcalls := calls_runScript w argv (goOn vo template code phoneNumber rest willSend)
  have hmore : (w.runScript () argv (goOn vo template code phoneNumber rest willSend)).accepted ≠
      [] := by
    unfold runScript
    dsimp only
    split
    · simp
    · exact haccepted
  rw [goOn, if_neg fun h => hnot h.1] at hcalls
  split at hcalls
  · exact .accepted hcalls hmore hargv fun htemplate => absurd htemplate hnot
  · exact .accepted hcalls hmore hargv fun htemplate => absurd htemplate hnot

/-- The first number to be accepted sets keys, and the others set none. -/
theorem keeping_runScript_unaccepted {template : SmsTemplatePO} {code : Option String}
    {phoneNumber : String} {rest : List String} {argv : Argv}
    (hargv : argvOf vo template code phoneNumber = .ok argv) (hsettable : argv.Settable w.now w.redis)
    (haccepted : w.accepted = []) (hcode : isCode template = true → (phoneNumber :: rest).length ≤ 1)
    (hsame : ∀ later, w.now ≤ later → ∀ key, w.redis.get later key = redis₀.get later key) :
    Keeping vo redis₀ (w.runScript () argv (goOn vo template code phoneNumber rest [])) := by
  have hcalls := calls_runScript w argv (goOn vo template code phoneNumber rest [])
  have hrest : isCode template = true → rest.length ≤ 1 := fun htemplate =>
    (Nat.le_succ _).trans (hcode htemplate)
  have hstays := execute_of_settable hsettable
  have hcases := executed w.now w.redis argv
  cases hexecute : execute w.now w.redis argv with
  | mk redis result =>
    rw [hexecute] at hcases hstays hcalls
    dsimp only at hcalls
    by_cases hzero : result = "0"
    · subst hzero
      rw [goOn, if_neg fun h => absurd h.2 (by decide), if_pos rfl] at hcalls
      refine .accepted hcalls ?_ (fun phoneNumber' => exists_argvOf_of_ok hargv) fun htemplate => ?_
      · simp [runScript, hexecute]
      · exact List.length_eq_zero_iff.mp (Nat.le_zero.mp (Nat.succ_le_succ_iff.mp (hcode htemplate)))
    · have hredis : redis = w.redis := by
        cases hcases with
        | refused | unchanged => rfl
        | failed => exact hstays rfl
        | accepted => exact absurd rfl hzero
      have hnone : (w.runScript () argv (goOn vo template code phoneNumber rest [])).accepted = [] := by
        simp [runScript, hexecute, hzero, haccepted]
      refine .unaccepted ?_ hnone ?_
      · rw [hcalls, goOn]
        split
        · exact .ended
        · exact .sending hrest
      · simp only [runScript, hexecute, hredis]
        exact hsame

theorem keeping_runRequest {request : SendSmsRequest} {next : Option SendSmsResponse → Sending}
    {response : Option SendSmsResponse} (hcall : w.calls () = .getResponse request next)
    (hkeeps : request.checkQueryParameters = true ∨ w.accepted = []) (h : Keeping vo redis₀ w) :
    Keeping vo redis₀ (w.runRequest () request next response) := by
  cases h with
  | sent hsent =>
    refine .sent ?_
    unfold runRequest
    dsimp only
    split
    · simp
    · exact hsent
  | accepted _ haccepted =>
    refine .sent ?_
    unfold runRequest
    dsimp only
    rw [if_pos (hkeeps.resolve_right haccepted)]
    simp
  | unaccepted hunaccepted haccepted hsame =>
    generalize hsending : w.calls () = sending at hunaccepted
    cases hunaccepted with
    | ended => cases hcall.symm.trans hsending
    | @sending template code rest hcode =>
      cases rest with
      | nil =>
        cases hcall.symm.trans hsending
        refine .unaccepted ?_ haccepted hsame
        have hcalls : (w.runRequest () (requestOf vo []) answer response).calls () =
            answer (if (requestOf vo []).checkQueryParameters then response else none) := by
          unfold runRequest
          exact Function.update_self () _ w.calls
        rw [hcalls, not_checkQueryParameters_nil, if_neg Bool.false_ne_true]
        exact .ended
      | cons phoneNumber rest =>
        have hcall := hcall.symm.trans hsending
        unfold sendAll at hcall
        split at hcall
        · cases hcall
        · cases hcall

theorem keeping_turn {response : Option SendSmsResponse} (h : Keeping vo redis₀ w)
    (hkeeps : w.Keeps (.turn () response)) : Keeping vo redis₀ (w.turn () response) := by
  unfold turn
  cases hcall : w.calls () with
  | ended result => exact h
  | getResponse request next =>
    simp only [Keeps, hcall] at hkeeps
    exact keeping_runRequest hcall hkeeps h
  | execute argv next =>
    simp only [Keeps, hcall] at hkeeps
    cases h with
    | sent hsent => exact .sent hsent
    | @accepted template code rest willSend hsending haccepted hargv hcode =>
      cases rest with
      | nil => cases hcall.symm.trans hsending
      | cons phoneNumber rest =>
        obtain ⟨argv', hargv'⟩ := hargv phoneNumber
        cases hcall.symm.trans (hsending.trans (sendAll_cons hargv'))
        exact keeping_runScript_accepted haccepted hargv hcode
    | unaccepted hunaccepted haccepted hsame =>
      generalize hsending : w.calls () = sending at hunaccepted
      cases hunaccepted with
      | ended => cases hcall.symm.trans hsending
      | @sending template code rest hcode =>
        cases rest with
        | nil => cases hcall.symm.trans hsending
        | cons phoneNumber rest =>
          cases hargv : argvOf vo template code phoneNumber with
          | error e =>
            rw [sendAll, hargv] at hsending
            cases hcall.symm.trans hsending
          | ok argv' =>
            cases hcall.symm.trans (hsending.trans (sendAll_cons hargv))
            exact keeping_runScript_unaccepted hargv hkeeps haccepted hcode hsame

theorem keeping_step (event : Event Unit) (h : Keeping vo redis₀ w) (hkeeps : w.Keeps event) :
    Keeping vo redis₀ (w.step event) := by
  cases event with
  | turn call response => exact keeping_turn h hkeeps
  | wait millis =>
    cases h with
    | sent hsent => exact .sent hsent
    | accepted hcall haccepted hargv hcode => exact .accepted hcall haccepted hargv hcode
    | unaccepted hcall haccepted hsame =>
      exact .unaccepted hcall haccepted fun later hle => hsame later ((Nat.le_add_right ..).trans hle)
  | expire key =>
    cases h with
    | sent hsent => exact .sent hsent
    | accepted hcall haccepted hargv hcode => exact .accepted hcall haccepted hargv hcode
    | unaccepted hcall haccepted hsame =>
      refine .unaccepted hcall haccepted fun later hle key' => ?_
      exact (Expiring.get_expire hle).trans (hsame later hle key')

end Way

/-! ## Every run of a call -/

/-- In every run of a call whose executions can set all of their keys, and whose request is
complete if a number was accepted for it, the call blocks nobody. -/
theorem blocksNobody_run (outside : Outside) (vo : SendSmsVO) (now : ℕ) (redis : Redis)
    (events : List (Event Unit)) (h : Along step Keeps (alone outside vo now redis) events) :
    Throughout step (BlocksNobody · redis) (alone outside vo now redis) events := by
  have hstep (w : World Unit) (event : Event Unit) (hkeeping : Keeping vo redis w)
      (hkeeps : w.Keeps event) : Keeping vo redis (step w event) :=
    keeping_step event hkeeping hkeeps
  have hthroughout := throughout_of_along hstep (keeping_alone outside vo now redis) h
  exact hthroughout.mono fun w hkeeping => hkeeping.blocksNobody

/-- An execution that fails after it has set a key blocks the number for the interval. -/
theorem isSome_of_not_settable {w : World Unit} {argv : Argv} {next : String → Sending} {later : ℕ}
    (hnone : w.redis.get w.now argv.keyForInIntervals = none)
    (hset : Settable w.now argv.intervals) (htype : argv.type = "0")
    (hnot : ¬ Settable w.now argv.effectiveTime) (hle : later ≤ argv.until w.now) :
    ((w.runScript () argv next).redis.get later argv.keyForInIntervals).isSome ∧
      (w.runScript () argv next).accepted = w.accepted := by
  have hfirst : SETEX w.now w.redis argv.keyForInIntervals argv.intervals "1" = some _ :=
    SETEX_eq_some.mpr ⟨hset, rfl⟩
  have hsecond : SETEX w.now (argv.setInIntervals w.now w.redis) argv.keyForSaveVerifyCodes
      argv.effectiveTime argv.verifyCode = none := if_neg hnot
  have hexecute : execute w.now w.redis argv = (argv.setInIntervals w.now w.redis, "9999") := by
    rw [Argv.setInIntervals] at hsecond
    simp [execute, sendSmsLua, hnone, hfirst, htype, hsecond, Argv.setInIntervals]
  rw [runScript, hexecute]
  constructor
  · rw [Argv.setInIntervals, Expiring.get_put_self hle]
    rfl
  · simp

def verification : Outside where
  existsBySignName _ := true
  findByTemplateCode _ := some { templateContent := "hello", templateType := ._0 }
  parseObject _ := .ok (some { containsKey := fun _ => true, getString := fun _ => some "1234" })

/-- A code for one number, at most one a minute. -/
def codeFor (effectiveTime : Int) : SendSmsVO where
  phoneNumbers := some "1"
  signName := some "s"
  templateCode := some "t"
  effectiveTime := some effectiveTime
  intervals := some 60
  timeUnit := some .SECONDS

/-- The number has got a code, half a minute ago. -/
def oneCode : Redis := Expiring.put (fun _ => none) 0 "inIntervals:s:t:1" 60000 "1"

/-- A second code in the minute is refused, and the keys stay. -/
theorem blocksNobody_run_refused :
    let w := run step (alone verification (codeFor 300) 30000 oneCode) [.turn () none]
    w.calls () = .ended (.error (.business .SEND_FREQUENTLY)) ∧ SameKeys 30000 w.redis oneCode := by
  have hthroughout := blocksNobody_run verification (codeFor 300) 30000 oneCode [.turn () none]
    (by decide +kernel)
  exact ⟨rfl, hthroughout.last _ rfl rfl⟩

/-- A code that is valid for no time: the number is blocked for a minute. -/
theorem not_blocksNobody : ¬ ∀ (outside : Outside) (vo : SendSmsVO) (now : ℕ) (redis : Redis)
    (events : List (Event Unit)),
      Throughout step (BlocksNobody · redis) (alone outside vo now redis) events := by
  intro h
  have hlast := (h verification (codeFor 0) 0 (fun _ => none)
    [.turn () none, .turn () none]).last
  have hsame := hlast (.business .REQUEST_EXCEPTION) rfl rfl 0 (by decide) "inIntervals:s:t:1"
  revert hsame
  decide +kernel

end World

end BigPlan.Sms
