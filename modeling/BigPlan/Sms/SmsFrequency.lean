import BigPlan.Lib.Runs
import BigPlan.Sms.AliceService

/-!
# How often a message is sent

The first key of an acceptance holds for its interval, and nobody sets it again before: acceptances
for one number, sign and template are that far apart in every run. A call hands over what was
accepted for it once it has asked for all of its numbers.
-/
namespace BigPlan.Sms

open Lib (Expiring)
open Lib.Runs
open Auth (splitComma)
open Sending (business)

variable {redis : Redis} {now later : ℕ} {argv argv' : Argv}

/-! ## One execution -/

theorem head?_append {s t : String} {c : Char} (h : s.toList.head? = some c) :
    (s ++ t).toList.head? = some c := by
  rw [String.toList_append, List.head?_append, h, Option.some_or]

theorem keyForInIntervals_ne : argv.keyForInIntervals ≠ argv'.keyForSaveVerifyCodes := by
  intro h
  have hi : argv.keyForInIntervals.toList.head? = some 'i' :=
    head?_append <| head?_append <| head?_append <| head?_append <| head?_append rfl
  have hv : argv'.keyForSaveVerifyCodes.toList.head? = some 'v' :=
    head?_append <| head?_append <| head?_append <| head?_append <| head?_append rfl
  rw [h, hv] at hi
  cases hi

/-- Until when the key of an acceptance at that time holds. -/
def Argv.until (argv : Argv) (time : ℕ) : ℕ := time + 1000 * argv.intervals.toNat

def Argv.setInIntervals (argv : Argv) (now : ℕ) (redis : Redis) : Redis :=
  redis.put now argv.keyForInIntervals (1000 * argv.intervals.toNat) "1"

def Argv.saveVerifyCode (argv : Argv) (now : ℕ) (redis : Redis) : Redis :=
  if argv.type = "0" then
    redis.put now argv.keyForSaveVerifyCodes (1000 * argv.effectiveTime.toNat) argv.verifyCode
  else redis

/-- What an execution may come to. -/
inductive Executed (now : ℕ) (redis : Redis) (argv : Argv) : Redis × String → Prop
  | refused (h : (redis.get now argv.keyForInIntervals).isSome) : Executed now redis argv (redis, "1")
  | accepted (hnone : redis.get now argv.keyForInIntervals = none)
      (hlt : now + 1000 * argv.intervals < 2 ^ 63) :
      Executed now redis argv (argv.saveVerifyCode now (argv.setInIntervals now redis), "0")
  | unchanged : Executed now redis argv (redis, "9999")
  | failed (hnone : redis.get now argv.keyForInIntervals = none) :
      Executed now redis argv (argv.setInIntervals now redis, "9999")

theorem SETEX_eq_some {key value : String} {seconds : Int} {redis' : Redis} :
    SETEX now redis key seconds value = some redis' ↔
      (0 < seconds ∧ now + 1000 * seconds < 2 ^ 63) ∧
        redis.put now key (1000 * seconds.toNat) value = redis' := by
  rw [SETEX, Option.ite_none_right_eq_some, Option.some_inj]

theorem executed (now : ℕ) (redis : Redis) (argv : Argv) :
    Executed now redis argv (execute now redis argv) := by
  unfold execute sendSmsLua
  dsimp only
  split
  · rename_i hsome
    exact .refused hsome
  · rename_i hnone
    rw [Bool.not_eq_true, Option.isSome_eq_false_iff, Option.isNone_iff_eq_none] at hnone
    split
    · exact .unchanged
    · rename_i redis' hset
      obtain ⟨⟨-, hlt⟩, rfl⟩ := SETEX_eq_some.mp hset
      split
      · rename_i htype
        split
        · exact .failed hnone
        · rename_i redis'' hset'
          obtain ⟨-, rfl⟩ := SETEX_eq_some.mp hset'
          have haccepted := Executed.accepted hnone hlt
          rw [Argv.saveVerifyCode, if_pos htype] at haccepted
          exact haccepted
      · rename_i htype
        have haccepted := Executed.accepted hnone hlt
        rw [Argv.saveVerifyCode, if_neg htype] at haccepted
        exact haccepted

theorem get_saveVerifyCode :
    (argv.saveVerifyCode now redis).get later argv'.keyForInIntervals =
      redis.get later argv'.keyForInIntervals := by
  unfold Argv.saveVerifyCode
  split
  · exact Expiring.get_put_of_ne keyForInIntervals_ne
  · rfl

theorem get_setInIntervals :
    (argv.setInIntervals now redis).get later argv'.keyForSaveVerifyCodes =
      redis.get later argv'.keyForSaveVerifyCodes :=
  Expiring.get_put_of_ne keyForInIntervals_ne.symm

/-- A key that holds is not set. -/
theorem isSome_setInIntervals (hnone : redis.get now argv.keyForInIntervals = none)
    (hle : now ≤ later) (h : (redis.get later argv'.keyForInIntervals).isSome) :
    ((argv.setInIntervals now redis).get later argv'.keyForInIntervals).isSome := by
  by_cases hkey : argv'.keyForInIntervals = argv.keyForInIntervals
  · have hnow := Expiring.isSome_of_later hle h
    rw [hkey, hnone] at hnow
    cases hnow
  · rwa [Argv.setInIntervals, Expiring.get_put_of_ne hkey]

theorem isSome_execute (hle : now ≤ later) (h : (redis.get later argv'.keyForInIntervals).isSome) :
    ((execute now redis argv).1.get later argv'.keyForInIntervals).isSome := by
  cases hexecute : execute now redis argv with
  | mk redis' result =>
    have hcases := executed now redis argv
    rw [hexecute] at hcases
    cases hcases with
    | refused | unchanged => exact h
    | accepted hnone =>
      rw [get_saveVerifyCode]
      exact isSome_setInIntervals hnone hle h
    | failed hnone => exact isSome_setInIntervals hnone hle h

theorem execute_of_accepted (h : (execute now redis argv).2 = "0") :
    redis.get now argv.keyForInIntervals = none ∧ now + 1000 * argv.intervals < 2 ^ 63 ∧
      (execute now redis argv).1 = argv.saveVerifyCode now (argv.setInIntervals now redis) := by
  cases hexecute : execute now redis argv with
  | mk redis' result =>
    have hcases := executed now redis argv
    rw [hexecute] at hcases h
    cases hcases with
    | accepted hnone hlt => exact ⟨hnone, hlt, rfl⟩
    | refused | unchanged | failed => simp at h

theorem get_saveVerifyCode_congr {redis' : Redis} {key : String}
    (h : redis.get later key = redis'.get later key) :
    (argv.saveVerifyCode now redis).get later key = (argv.saveVerifyCode now redis').get later key := by
  unfold Argv.saveVerifyCode
  split
  · exact Expiring.get_put_congr h
  · exact h

/-- Only an acceptance changes what is read of the codes. -/
theorem get_execute : (execute now redis argv).1.get later argv'.keyForSaveVerifyCodes =
    (if (execute now redis argv).2 = "0" then argv.saveVerifyCode now redis else redis).get later
      argv'.keyForSaveVerifyCodes := by
  cases hexecute : execute now redis argv with
  | mk redis' result =>
    have hcases := executed now redis argv
    rw [hexecute] at hcases
    cases hcases with
    | refused | unchanged => rfl
    | failed hnone => exact get_setInIntervals
    | accepted hnone => exact get_saveVerifyCode_congr get_setInIntervals

/-! ## One call -/

section Call

variable {vo : SendSmsVO} {next : String → Sending} {answered : Option SendSmsResponse → Sending}
  {accepted : List String} {request : SendSmsRequest} {handed : List SendSmsRequest}

/-- The occurrences of phone numbers in the list of the call. -/
def SendSmsVO.occurrences (vo : SendSmsVO) : List String := (vo.phoneNumbers.map splitComma).getD []

structure SendSmsVO.Whole (vo : SendSmsVO) : Prop where
  exists_argv : ∃ timeUnit effectiveTime intervals, vo.timeUnit = some timeUnit ∧
    vo.effectiveTime = some effectiveTime ∧ vo.intervals = some intervals ∧
    timeUnit.Whole effectiveTime ∧ timeUnit.Whole intervals

/-- Where a call is, with what was accepted for it and what it has handed over. -/
inductive Stage (vo : SendSmsVO) : Sending → List String → List SendSmsRequest → Prop
  | sending {template : SmsTemplatePO} {code : Option String} {rest willSend : List String}
      (hsub : (willSend ++ rest).Sublist vo.occurrences)
      (hcode : isCode template = true → (willSend ++ rest).length ≤ 1) :
      Stage vo (sendAll vo template code rest willSend) willSend []
  | answered {willSend : List String} {response : Option SendSmsResponse}
      (hsub : willSend.Sublist vo.occurrences) :
      Stage vo (answer response) willSend [requestOf vo willSend]
  | stopped {e : Thrown} : Stage vo (.ended (.error e)) [] []

theorem stage_sendSms (outside : Outside) (vo : SendSmsVO) : Stage vo (sendSms outside vo) [] [] := by
  unfold sendSms
  split
  · exact .stopped
  · split
    · exact .stopped
    · split
      · exact .stopped
      · rename_i hphones
        split
        · exact .stopped
        · rename_i hsingle
          split
          · exact .stopped
          · refine .sending ?_ fun hcode => ?_
            · rw [SendSmsVO.occurrences, hphones]
              exact List.Sublist.refl _
            · exact not_lt.mp fun hlt => hsingle ⟨hcode, hlt⟩

theorem answer_eq_ended (response : Option SendSmsResponse) :
    ∃ result, answer response = .ended result ∧ result ≠ .error (.business .SEND_FREQUENTLY) := by
  unfold answer
  split
  · exact ⟨_, rfl, by decide⟩
  · split
    · exact ⟨_, rfl, by decide⟩
    · exact ⟨_, rfl, by simp⟩

theorem toString_value (type : TemplateType) : toString type.value = "0" ↔ type = ._0 := by
  cases type <;> decide

theorem argvOf_ok {template : SmsTemplatePO} {code : Option String} {phoneNumber : String}
    (h : argvOf vo template code phoneNumber = .ok argv) :
    argv.phoneNumber = phoneNumber ∧ argv.signName = vo.signName.getD "" ∧
      argv.templateCode = vo.templateCode.getD "" ∧ (argv.type = "0" ↔ isCode template = true) ∧
      ∃ timeUnit intervals, vo.timeUnit = some timeUnit ∧ vo.intervals = some intervals ∧
        argv.intervals = timeUnit.toSeconds intervals := by
  unfold argvOf at h
  split at h
  · rename_i timeUnit _ intervals hunit _ hintervals
    cases h
    refine ⟨rfl, rfl, rfl, ?_, timeUnit, intervals, hunit, hintervals, rfl⟩
    rw [isCode, decide_eq_true_iff]
    exact toString_value template.templateType
  · cases h

theorem exists_argvOf (hwhole : vo.Whole) (template : SmsTemplatePO) (code : Option String)
    (phoneNumber : String) : ∃ argv, argvOf vo template code phoneNumber = .ok argv := by
  obtain ⟨timeUnit, effectiveTime, intervals, hunit, heffective, hintervals, -⟩ := hwhole.exists_argv
  unfold argvOf
  rw [hunit, heffective, hintervals]
  exact ⟨_, rfl⟩

/-- What a script execution makes of a call. -/
theorem Stage.execute (h : Stage vo (.execute argv next) accepted handed) :
    (∃ template code, argvOf vo template code argv.phoneNumber = .ok argv) ∧ handed = [] ∧
      (argv.type = "0" → next "1" = business .SEND_FREQUENTLY) ∧
      ∀ result, Stage vo (next result)
        (if result = "0" then accepted ++ [argv.phoneNumber] else accepted) [] := by
  generalize hsending : Sending.execute argv next = sending at h
  cases h with
  | stopped => cases hsending
  | answered =>
    obtain ⟨result, hanswer, -⟩ := answer_eq_ended ‹_›
    cases hsending.trans hanswer
  | @sending template code rest _ hsub hcode =>
    cases rest with
    | nil => cases hsending
    | cons phoneNumber rest =>
      unfold sendAll at hsending
      split at hsending
      · cases hsending
      · rename_i argv' hargv
        cases hsending
        obtain ⟨hphone, -, -, htype, -⟩ := argvOf_ok hargv
        refine ⟨⟨template, code, hphone ▸ hargv⟩, rfl, fun hzero => if_pos ⟨htype.mp hzero, rfl⟩, ?_⟩
        intro result
        have hrest : (accepted ++ [phoneNumber] ++ rest).Sublist vo.occurrences := by
          rwa [List.append_assoc]
        have hskip : (accepted ++ rest).Sublist vo.occurrences :=
          (List.Sublist.append_left (List.sublist_cons_self ..) _).trans hsub
        dsimp only
        split
        · -- the list of a code has one number, so none was accepted before
          rename_i hrefused
          have hlength := hcode hrefused.1
          rw [hrefused.2, if_neg (by decide)]
          have hnil : accepted = [] := by
            rw [← List.length_eq_zero_iff]
            simp only [List.length_append, List.length_cons] at hlength
            omega
          rw [hnil]
          exact .stopped
        · split
          · rw [hphone]
            refine .sending hrest fun htemplate => ?_
            have hlength := hcode htemplate
            rwa [List.append_assoc]
          · refine .sending hskip fun htemplate => ?_
            have hlength := hcode htemplate
            simp only [List.length_append, List.length_cons] at hlength ⊢
            omega

/-- A call hands over once, after all that is accepted for it. -/
theorem Stage.getResponse (h : Stage vo (.getResponse request answered) accepted handed) :
    handed = [] ∧ ∀ response, Stage vo (answered response) accepted [request] := by
  generalize hsending : Sending.getResponse request answered = sending at h
  cases h with
  | stopped => cases hsending
  | answered =>
    obtain ⟨result, hanswer, -⟩ := answer_eq_ended ‹_›
    cases hsending.trans hanswer
  | @sending template code rest _ hsub hcode =>
    cases rest with
    | nil =>
      cases hsending
      rw [List.append_nil] at hsub
      exact ⟨rfl, fun response => .answered hsub⟩
    | cons phoneNumber rest =>
      unfold sendAll at hsending
      split at hsending
      · cases hsending
      · cases hsending

/-- What a call hands to the gateway: one request, with the accepted occurrences in order, and none
if it was refused or asked for nothing. -/
structure Hands (vo : SendSmsVO) (sending : Sending) (accepted : List String)
    (handed : List SendSmsRequest) : Prop where
  occurrences : accepted.Sublist vo.occurrences
  once : handed = [] ∨ handed = [requestOf vo accepted]
  complete : ∀ result, sending = .ended result → handed = [] → accepted = []
  refused : sending = business .SEND_FREQUENTLY → accepted = [] ∧ handed = []

theorem Stage.hands (hwhole : vo.Whole) {sending : Sending} (h : Stage vo sending accepted handed) :
    Hands vo sending accepted handed := by
  cases h with
  | stopped => exact ⟨List.nil_sublist _, .inl rfl, fun _ _ _ => rfl, fun _ => ⟨rfl, rfl⟩⟩
  | @answered _ response hsub =>
    obtain ⟨result, hanswer, hne⟩ := answer_eq_ended response
    refine ⟨hsub, .inr rfl, fun _ _ hhanded => ?_, fun hrefused => ?_⟩
    · cases hhanded
    · cases hanswer.symm.trans hrefused
      exact absurd rfl hne
  | @sending template code rest _ hsub hcode =>
    have hsub' : accepted.Sublist vo.occurrences := (List.sublist_append_left ..).trans hsub
    cases rest with
    | nil =>
      refine ⟨hsub', .inl rfl, fun result hended _ => ?_, fun hrefused => ?_⟩
      · cases hended
      · cases hrefused
    | cons phoneNumber rest =>
      obtain ⟨argv, hargv⟩ := exists_argvOf hwhole template code phoneNumber
      refine ⟨hsub', .inl rfl, fun result hended _ => ?_, fun hrefused => ?_⟩
      · simp only [sendAll, hargv] at hended
        cases hended
      · simp only [sendAll, hargv] at hrefused
        cases hrefused

end Call

/-! ## All calls -/

namespace World

variable {ι : Type*} [DecidableEq ι] {w : World ι} {vo : ι → SendSmsVO} {redis₀ : Redis} {i j : ι}
  {next : String → Sending}

/-- The stored codes, as the acceptances alone leave them. -/
def codes (redis : Redis) (accepted : List (Acceptance ι)) : Redis :=
  accepted.foldl (fun redis a => a.argv.saveVerifyCode a.time redis) redis

/-- The key of each acceptance holds for its interval, and no acceptance for that key comes before
it ends. -/
structure Limits (vo : ι → SendSmsVO) (redis₀ : Redis) (w : World ι) : Prop where
  stage : ∀ i, Stage (vo i) (w.calls i) (w.acceptedBy i) (w.handedBy i)
  sent : ∀ i, w.sentBy i =
    ((w.handedBy i).filter (·.checkQueryParameters)).map (·.buildQueryParameters)
  argv : ∀ a ∈ w.accepted,
    ∃ template code, argvOf (vo a.call) template code a.argv.phoneNumber = .ok a.argv
  lifetime : ∀ a ∈ w.accepted, a.time + 1000 * a.argv.intervals < 2 ^ 63
  held : ∀ a ∈ w.accepted, ∀ later, w.now ≤ later → later ≤ a.argv.until a.time →
    (w.redis.get later a.argv.keyForInIntervals).isSome
  spaced : w.accepted.Pairwise fun a b =>
    a.argv.keyForInIntervals = b.argv.keyForInIntervals → a.argv.until a.time < b.time
  codes : ∀ (argv : Argv) (later : ℕ), w.now ≤ later →
    w.redis.get later argv.keyForSaveVerifyCodes =
      (codes redis₀ w.accepted).get later argv.keyForSaveVerifyCodes

theorem acceptedBy_runScript : (w.runScript i argv next).acceptedBy j =
    if i = j ∧ (execute w.now w.redis argv).2 = "0" then w.acceptedBy j ++ [argv.phoneNumber]
    else w.acceptedBy j := by
  unfold runScript acceptedBy
  dsimp only
  by_cases hresult : (execute w.now w.redis argv).2 = "0"
  · by_cases hij : i = j
    · simp [hresult, hij]
    · simp [hresult, hij]
  · simp [hresult]

theorem mem_accepted_runScript {a : Acceptance ι} :
    a ∈ (w.runScript i argv next).accepted ↔ a ∈ w.accepted ∨
      (execute w.now w.redis argv).2 = "0" ∧ a = { call := i, argv, time := w.now } := by
  unfold runScript
  dsimp only
  split
  · rename_i hresult
    simp [hresult]
  · rename_i hresult
    simp [hresult]

theorem limits_runScript (h : Limits vo redis₀ w) (hcall : w.calls i = .execute argv next) :
    Limits vo redis₀ (w.runScript i argv next) := by
  have hstage := h.stage i
  rw [hcall] at hstage
  obtain ⟨hargv, hhanded, -, hnext⟩ := hstage.execute
  constructor
  case stage =>
    intro j
    rw [acceptedBy_runScript]
    by_cases hij : i = j
    · subst hij
      have hcalls : (w.runScript i argv next).calls i = next (execute w.now w.redis argv).2 :=
        Function.update_self ..
      have hhanded' : (w.runScript i argv next).handedBy i = [] := hhanded
      rw [hcalls, hhanded']
      simpa only [true_and] using hnext _
    · have hcalls : (w.runScript i argv next).calls j = w.calls j :=
        Function.update_of_ne (Ne.symm hij) ..
      rw [hcalls, if_neg fun hboth => hij hboth.1]
      exact h.stage j
  case sent => exact h.sent
  case argv =>
    intro a ha
    rcases mem_accepted_runScript.mp ha with hold | ⟨-, rfl⟩
    · exact h.argv a hold
    · exact hargv
  case lifetime =>
    intro a ha
    rcases mem_accepted_runScript.mp ha with hold | ⟨hresult, rfl⟩
    · exact h.lifetime a hold
    · exact (execute_of_accepted hresult).2.1
  case held =>
    intro a ha later hle huntil
    have hredis : (w.runScript i argv next).redis = (execute w.now w.redis argv).1 := rfl
    rcases mem_accepted_runScript.mp ha with hold | ⟨hresult, rfl⟩
    · exact isSome_execute hle (h.held a hold later hle huntil)
    · rw [hredis, (execute_of_accepted hresult).2.2, get_saveVerifyCode, Argv.setInIntervals,
        Expiring.get_put_self huntil]
      rfl
  case spaced =>
    unfold runScript
    dsimp only
    split
    · rename_i hresult
      refine List.pairwise_append.mpr ⟨h.spaced, List.pairwise_singleton _ _, fun a ha b hb hkey => ?_⟩
      rw [List.mem_singleton.mp hb] at hkey ⊢
      by_contra hlt
      have hheld := h.held a ha w.now le_rfl (not_lt.mp hlt)
      rw [hkey, (execute_of_accepted hresult).1] at hheld
      cases hheld
    · exact h.spaced
  case codes =>
    intro argv' later hle
    have hredis : (w.runScript i argv next).redis = (execute w.now w.redis argv).1 := rfl
    rw [hredis, get_execute]
    unfold runScript
    dsimp only
    split
    · rw [World.codes, List.foldl_append]
      exact get_saveVerifyCode_congr (h.codes argv' later hle)
    · exact h.codes argv' later hle

theorem handedBy_runRequest {request : SendSmsRequest} {answered : Option SendSmsResponse → Sending}
    {response : Option SendSmsResponse} : (w.runRequest i request answered response).handedBy j =
      if i = j then w.handedBy j ++ [request] else w.handedBy j := by
  unfold runRequest handedBy
  by_cases hij : i = j
  · simp [hij]
  · simp [hij]

theorem sentBy_runRequest {request : SendSmsRequest} {answered : Option SendSmsResponse → Sending}
    {response : Option SendSmsResponse} : (w.runRequest i request answered response).sentBy j =
      if i = j ∧ request.checkQueryParameters = true then
        w.sentBy j ++ [request.buildQueryParameters]
      else w.sentBy j := by
  unfold runRequest sentBy
  cases hcheck : request.checkQueryParameters with
  | false => simp
  | true =>
    by_cases hij : i = j
    · simp [hij]
    · simp [hij]

theorem limits_runRequest {request : SendSmsRequest} {answered : Option SendSmsResponse → Sending}
    (h : Limits vo redis₀ w) (hcall : w.calls i = .getResponse request answered)
    (response : Option SendSmsResponse) : Limits vo redis₀ (w.runRequest i request answered response) := by
  have hstage := h.stage i
  rw [hcall] at hstage
  obtain ⟨hnone, hnext⟩ := hstage.getResponse
  refine { h with stage := fun j => ?_, sent := fun j => ?_ }
  · have haccepted : (w.runRequest i request answered response).acceptedBy j = w.acceptedBy j := rfl
    rw [haccepted, handedBy_runRequest]
    by_cases hij : i = j
    · subst hij
      have hcalls : (w.runRequest i request answered response).calls i =
          answered (if request.checkQueryParameters then response else none) :=
        Function.update_self ..
      rw [if_pos rfl, hnone, hcalls]
      exact hnext _
    · have hcalls : (w.runRequest i request answered response).calls j = w.calls j :=
        Function.update_of_ne (Ne.symm hij) ..
      rw [if_neg hij, hcalls]
      exact h.stage j
  · rw [handedBy_runRequest, sentBy_runRequest, h.sent j]
    by_cases hij : i = j
    · cases hcheck : request.checkQueryParameters with
      | true => simp [hij, hcheck]
      | false => simp [hij, hcheck]
    · simp [hij]

theorem limits_step (h : Limits vo redis₀ w) (event : Event ι) : Limits vo redis₀ (w.step event) := by
  cases event with
  | wait millis =>
    have hle {later : ℕ} (hlater : w.now + millis ≤ later) : w.now ≤ later :=
      (Nat.le_add_right ..).trans hlater
    exact { h with
      held := fun a ha later hlater => h.held a ha later (hle hlater)
      codes := fun argv later hlater => h.codes argv later (hle hlater) }
  | expire key =>
    refine { h with held := fun a ha later hle huntil => ?_, codes := fun argv later hle => ?_ }
    · exact (congrArg Option.isSome (Expiring.get_expire hle)).trans (h.held a ha later hle huntil)
    · exact (Expiring.get_expire hle).trans (h.codes argv later hle)
  | turn i response =>
    have hturn : w.step (.turn i response) = w.turn i response := rfl
    rw [hturn, turn]
    split
    · rename_i hcall
      exact limits_runScript h hcall
    · rename_i hcall
      exact limits_runRequest h hcall response
    · exact h

theorem limits_start (outside : ι → Outside) (vo : ι → SendSmsVO) (now : ℕ) (redis : Redis) :
    Limits vo redis (start outside vo now redis) where
  stage i := stage_sendSms (outside i) (vo i)
  sent _ := rfl
  argv _ ha := absurd ha List.not_mem_nil
  lifetime _ ha := absurd ha List.not_mem_nil
  held _ ha := absurd ha List.not_mem_nil
  spaced := List.Pairwise.nil
  codes _ _ _ := rfl

end World

/-- The interval between messages that the call asks for, in milliseconds. -/
def SendSmsVO.interval (vo : SendSmsVO) : Int :=
  match vo.timeUnit, vo.intervals with
  | some timeUnit, some intervals => timeUnit.millis intervals
  | _, _ => 0

namespace World

variable {ι : Type*} [DecidableEq ι] {w : World ι} {vo : ι → SendSmsVO} {redis₀ : Redis}

/-- The same sign, template and phone number. -/
def SameMessage (a b : Acceptance ι) : Prop :=
  a.argv.signName = b.argv.signName ∧ a.argv.templateCode = b.argv.templateCode ∧
    a.argv.phoneNumber = b.argv.phoneNumber

/-- The limit on messages, in one state. The codes that are stored are those of the acceptances
alone, and a refused call for a code ends, sends nothing and changes no key. -/
structure Limited (vo : ι → SendSmsVO) (redis₀ : Redis) (w : World ι) : Prop where
  hands : ∀ i, Hands (vo i) (w.calls i) (w.acceptedBy i) (w.handedBy i)
  sent : ∀ i, w.sentBy i =
    ((w.handedBy i).filter (·.checkQueryParameters)).map (·.buildQueryParameters)
  spaced : w.accepted.Pairwise fun a b =>
    SameMessage a b → (a.time : Int) + (vo a.call).interval ≤ b.time
  codes : ∀ argv : Argv, w.redis.get w.now argv.keyForSaveVerifyCodes =
    (codes redis₀ w.accepted).get w.now argv.keyForSaveVerifyCodes
  refused : ∀ i argv next response, w.calls i = .execute argv next → argv.type = "0" →
    (w.redis.get w.now argv.keyForInIntervals).isSome →
      let refused := w.step (.turn i response)
      refused.calls i = business .SEND_FREQUENTLY ∧ refused.redis = w.redis ∧
        refused.accepted = w.accepted ∧ refused.handed = w.handed ∧ refused.sent = w.sent

/-- The key of an acceptance holds for the interval that its call asks for. -/
theorem Limits.until_eq (hwhole : ∀ i, (vo i).Whole) (h : Limits vo redis₀ w) {a : Acceptance ι}
    (ha : a ∈ w.accepted) : (a.argv.until a.time : Int) = a.time + (vo a.call).interval := by
  obtain ⟨template, code, hargv⟩ := h.argv a ha
  obtain ⟨-, -, -, -, timeUnit, intervals, hunit, hintervals, hseconds⟩ := argvOf_ok hargv
  obtain ⟨timeUnit', -, intervals', hunit', -, hintervals', -, hwhole⟩ := (hwhole a.call).exists_argv
  cases hunit.symm.trans hunit'
  cases hintervals.symm.trans hintervals'
  have hlifetime := h.lifetime a ha
  rw [hseconds] at hlifetime
  have hmillis := TimeUnit.toSeconds_eq_millis hwhole (by omega)
  have hnonneg := TimeUnit.millis_nonneg hwhole
  rw [Argv.until, SendSmsVO.interval, hunit, hintervals, hseconds]
  dsimp only
  omega

theorem Limits.limited (hwhole : ∀ i, (vo i).Whole) (h : Limits vo redis₀ w) : Limited vo redis₀ w where
  hands i := (h.stage i).hands (hwhole i)
  sent := h.sent
  spaced := by
    refine h.spaced.imp_of_mem fun {a b} ha _ hab hsame => ?_
    obtain ⟨hsign, htemplate, hphone⟩ := hsame
    have hkey : a.argv.keyForInIntervals = b.argv.keyForInIntervals := by
      unfold Argv.keyForInIntervals
      rw [hsign, htemplate, hphone]
    have huntil := h.until_eq hwhole ha
    have hlt := hab hkey
    omega
  codes argv := h.codes argv w.now le_rfl
  refused i argv next response hcall htype hsome := by
    have hstage := h.stage i
    rw [hcall] at hstage
    obtain ⟨-, -, hfrequently, -⟩ := hstage.execute
    have hexecute : execute w.now w.redis argv = (w.redis, "1") := by
      simp only [execute, sendSmsLua, if_pos hsome, Option.getD_some]
    have hstep : w.step (.turn i response) = w.runScript i argv next := by
      simp only [step, turn, hcall]
    rw [hstep, runScript, hexecute]
    exact ⟨(Function.update_self ..).trans (hfrequently htype), rfl, rfl, rfl, rfl⟩

/-- A notice to one number twice, with an interval of a minute. -/
def twice : SendSmsVO where
  phoneNumbers := some "1,1"
  signName := some "s"
  templateCode := some "t"
  effectiveTime := some 1
  intervals := some 1
  timeUnit := some .MINUTES

def notices : Outside where
  existsBySignName _ := true
  findByTemplateCode _ := some { templateContent := "hello", templateType := ._1 }
  parseObject _ := .ok none

/-- Two calls take turns for longer than the interval. -/
def turns : List (Event Bool) :=
  [.turn true none, .turn false none, .turn true none, .wait 60001, .turn false none,
    .turn true none, .turn false none]

example : let w := run step (start (fun _ => notices) (fun _ => twice) 0 fun _ => none) turns
    w.acceptedBy true = ["1"] ∧ w.acceptedBy false = ["1"] ∧ w.accepted.map (·.time) = [0, 60001] ∧
      (w.handedBy true).map (·.phoneNumbers) = ["1"] := by decide

end World

end BigPlan.Sms
