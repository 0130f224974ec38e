import BigPlan.Auth.CodeExchange
import BigPlan.Lib.Runs

/-!
# Customize info of a user

`UserCustomizeInfoServiceImpl.update` merges the submitted values into the stored info of a
client and sends them to the authorization server, where they are put into the customer info of
the live token. The keys that are not to be submitted are held back on one of the three ways.
-/
namespace BigPlan.User

open Lib.Runs

/-- The values of an object by their keys: inside `none` is `null`. -/
abbrev JsonObject (V : Type) := String → Option (Option V)

namespace JsonObject

variable {V : Type}

def get (object : JsonObject V) (key : String) : Option V := (object key).join

/-- The text of an object leaves `null` out. -/
def toJSONString (object : JsonObject V) : JsonObject V := fun key => (object.get key).map some

/-- `source.forEach`, where it is put under each key that is not passed over. -/
def putAll (passedOver : String → Bool) (source target : JsonObject V) : JsonObject V := fun key =>
  if passedOver key then target key else (source key).or (target key)

@[simp] theorem get_toJSONString (object : JsonObject V) (key : String) :
    object.toJSONString.get key = object.get key := by
  rw [get, toJSONString]
  cases object.get key <;> rfl

theorem get_putAll_of_passedOver {passedOver : String → Bool} {source target : JsonObject V}
    {key : String} (h : passedOver key = true) :
    (putAll passedOver source target).get key = target.get key := by
  rw [get, putAll, if_pos h, get]

theorem get_putAll {passedOver : String → Bool} {source target : JsonObject V} {key : String}
    (h : passedOver key = false) :
    (putAll passedOver source target).get key =
      match source key with
      | some value => value
      | none => target.get key := by
  unfold get putAll
  rw [h]
  cases source key <;> rfl

end JsonObject

/-! ## The two servers -/

/-- `AuthConstants.filterCustomizeInfo`. -/
def filterCustomizeInfo (key : String) : Bool :=
  key = "isEnabled" || key = "positionId" || key = "superiorId"

section Servers

variable (V : Type)

/-- Blank info is `none`. -/
structure UserCustomizeInfoVO where
  clientId : String
  info : Option (JsonObject V)

structure AuthorizeInfoDTO where
  scopes : Option (List String)
  customerInfo : Option (JsonObject V)

structure AuthorizeInfoEntity where
  scopes : String
  customerInfo : Option (JsonObject V)

/-- The rows of a user by client, with blank info as `none`, and what stands in Redis. -/
structure Servers where
  infos : String → Option (Option (JsonObject V))
  idToken : Option String
  authorizeInfo : String → Option (AuthorizeInfoEntity V)

end Servers

namespace Servers

variable {V : Type}

/-- The row after `update`, and the event. -/
def update (vo : UserCustomizeInfoVO V) (s : Servers V) :
    Servers V × Option (AuthorizeInfoDTO V) :=
  match s.infos vo.clientId, vo.info with
  | some none, some info =>
    ({ s with infos := Function.update s.infos vo.clientId (some (some info)) }, none)
  | some (some old), some newValues =>
    let oldValues := JsonObject.putAll filterCustomizeInfo newValues old
    ({ s with infos := Function.update s.infos vo.clientId (some (some oldValues.toJSONString)) },
      some ⟨none, some newValues.toJSONString⟩)
  | _, _ => (s, none)

/-- Without a live token nothing happens; putting into `null` is an exception. -/
def authorizeInfoUpdater (dto : AuthorizeInfoDTO V) (s : Servers V) : Servers V :=
  match s.idToken with
  | none => s
  | some token =>
    match s.authorizeInfo token with
    | none => s
    | some entity =>
      let save (customerInfo : Option (JsonObject V)) : Servers V :=
        { s with
          authorizeInfo := Function.update s.authorizeInfo token (some {
            scopes := ",".intercalate (dto.scopes.getD (Auth.splitComma entity.scopes))
            customerInfo := customerInfo.map JsonObject.toJSONString }) }
      match dto.customerInfo, entity.customerInfo with
      | none, customerInfo => save customerInfo
      | some values, some customerInfo =>
        save (some (JsonObject.putAll (fun _ => false) values customerInfo))
      | some _, none => s

/-- One update, with its event. -/
def step (s : Servers V) (vo : UserCustomizeInfoVO V) : Servers V :=
  match s.update vo with
  | (s, none) => s
  | (s, some dto) => s.authorizeInfoUpdater dto

/-- The customer info of the live token. -/
def customerInfo (s : Servers V) : Option (JsonObject V) := do
  let token ← s.idToken
  let entity ← s.authorizeInfo token
  entity.customerInfo

def live (s : Servers V) (key : String) : Option V := s.customerInfo.bind (·.get key)

def stored (s : Servers V) (clientId key : String) : Option V :=
  (s.infos clientId).join.bind (·.get key)

/-- Keys that are filtered keep their values, all others have the submitted one in both places,
and places that were equal are equal. -/
structure Submits (s : Servers V) (vo : UserCustomizeInfoVO V) (s' : Servers V) : Prop where
  keeps : ∀ key, filterCustomizeInfo key = true →
    (∀ clientId, s'.stored clientId key = s.stored clientId key) ∧ s'.live key = s.live key
  reaches : ∀ values, vo.info = some values → ∀ key, filterCustomizeInfo key = false →
    ∀ value, values key = some value → s'.stored vo.clientId key = value ∧ s'.live key = value
  equal : (∀ key, s.stored vo.clientId key = s.live key) →
    ∀ key, s'.stored vo.clientId key = s'.live key

/-! ### When an update submits its values -/

/-- There is no row: no value that could go anywhere. -/
def Unheard (s : Servers V) (values : JsonObject V) : Prop :=
  ∀ key, filterCustomizeInfo key = false → ∀ value, values key = some value →
    value = none ∧ s.live key = none

/-- The info is blank: no value under a filtered key, and only what the live token has. -/
def First (s : Servers V) (values : JsonObject V) : Prop :=
  (∀ key, filterCustomizeInfo key = true → values.get key = none) ∧
    ∀ key, filterCustomizeInfo key = false → ∀ value, values key = some value →
      s.live key = value

/-- There is info: no other value under a filtered key than the live token has, and `null` under
no key that it has. -/
def Merges (s : Servers V) (values : JsonObject V) : Prop :=
  match s.customerInfo with
  | none => ∀ key, filterCustomizeInfo key = false → values.get key = none
  | some customerInfo =>
    (∀ key, filterCustomizeInfo key = true → ∀ value, values.get key = some value →
      customerInfo.get key = some value) ∧
    ∀ key, filterCustomizeInfo key = false → values key = some none → customerInfo.get key = none

def Heard (s : Servers V) (vo : UserCustomizeInfoVO V) : Prop :=
  ∀ values, vo.info = some values →
    match s.infos vo.clientId with
    | none => s.Unheard values
    | some none => s.First values
    | some (some _) => s.Merges values

/-! ### The three ways -/

section Ways

variable {s : Servers V} {vo : UserCustomizeInfoVO V} {values old : JsonObject V} {key : String}

theorem step_of_noInfo (h : vo.info = none) : step s vo = s := by
  unfold step update
  rw [h]
  cases s.infos vo.clientId with
  | none => rfl
  | some info => cases info <;> rfl

theorem step_of_noRow (h : s.infos vo.clientId = none) : step s vo = s := by
  unfold step update
  rw [h]

theorem step_of_blank (hrow : s.infos vo.clientId = some none) (hinfo : vo.info = some values) :
    step s vo =
      { s with infos := Function.update s.infos vo.clientId (some (some values)) } := by
  unfold step update
  rw [hrow, hinfo]

theorem step_of_some (hrow : s.infos vo.clientId = some (some old))
    (hinfo : vo.info = some values) :
    step s vo = authorizeInfoUpdater ⟨none, some values.toJSONString⟩
      { s with
        infos := Function.update s.infos vo.clientId (some (some
          (JsonObject.putAll filterCustomizeInfo values old).toJSONString)) } := by
  unfold step update
  rw [hrow, hinfo]

theorem customerInfo_updater (values : JsonObject V) (s : Servers V) :
    (authorizeInfoUpdater ⟨none, some values⟩ s).customerInfo =
      s.customerInfo.map fun customerInfo =>
        (JsonObject.putAll (fun _ => false) values customerInfo).toJSONString := by
  unfold authorizeInfoUpdater
  cases htoken : s.idToken with
  | none => simp [customerInfo, htoken]
  | some token =>
    simp only
    cases hentity : s.authorizeInfo token with
    | none => simp [customerInfo, htoken, hentity]
    | some entity =>
      simp only
      cases hinfo : entity.customerInfo with
      | none => simp [customerInfo, htoken, hentity, hinfo]
      | some info => simp [customerInfo, htoken, hentity, hinfo]

theorem infos_updater (dto : AuthorizeInfoDTO V) (s : Servers V) :
    (authorizeInfoUpdater dto s).infos = s.infos := by
  unfold authorizeInfoUpdater
  cases s.idToken with
  | none => rfl
  | some token =>
    simp only
    cases s.authorizeInfo token with
    | none => rfl
    | some entity =>
      simp only
      cases dto.customerInfo with
      | none => rfl
      | some values => cases entity.customerInfo <;> rfl

/-- The row of another client stays. -/
theorem stored_of_ne {infos : Option (Option (JsonObject V))} {clientId other : String}
    (h : other ≠ clientId) :
    stored { s with infos := Function.update s.infos clientId infos } other key =
      s.stored other key := by
  simp only [stored, Function.update_of_ne h]

theorem stored_self (s : Servers V) (clientId key : String) (info : JsonObject V) :
    stored { s with infos := Function.update s.infos clientId (some (some info)) } clientId key =
      info.get key := by
  simp only [stored, Function.update_self]
  rfl

theorem stored_updater (dto : AuthorizeInfoDTO V) (s : Servers V) (clientId key : String) :
    (authorizeInfoUpdater dto s).stored clientId key = s.stored clientId key := by
  rw [stored, infos_updater, stored]

/-- What an update of a row with info leaves in the live customer info. -/
theorem live_updater (values : JsonObject V) (s : Servers V) (key : String) :
    (authorizeInfoUpdater ⟨none, some values.toJSONString⟩ s).live key =
      s.customerInfo.bind fun customerInfo => (values.get key).or (customerInfo.get key) := by
  rw [live, customerInfo_updater]
  cases s.customerInfo with
  | none => rfl
  | some info =>
    simp only [Option.map_some, Option.bind_some, JsonObject.get_toJSONString]
    rw [JsonObject.get_putAll rfl, JsonObject.toJSONString]
    cases values.get key <;> rfl

/-- What it leaves in the row. -/
theorem get_merged (h : filterCustomizeInfo key = false) :
    (JsonObject.putAll filterCustomizeInfo values old).toJSONString.get key =
      match values key with
      | some value => value
      | none => old.get key := by
  rw [JsonObject.get_toJSONString, JsonObject.get_putAll h]

theorem submits_noRow (hrow : s.infos vo.clientId = none) (hinfo : vo.info = some values) :
    Submits s vo s ↔ s.Unheard values := by
  have hstored (key : String) : s.stored vo.clientId key = none := by rw [stored, hrow]; rfl
  constructor
  · intro h key hkey value hvalue
    obtain ⟨hrow, hlive⟩ := h.reaches values hinfo key hkey value hvalue
    rw [hstored] at hrow
    exact ⟨hrow.symm, hlive.trans hrow.symm⟩
  · intro h
    refine ⟨fun _ _ => ⟨fun _ => rfl, rfl⟩, fun values' hvalues' key hkey value hvalue => ?_,
      fun hequal => hequal⟩
    obtain rfl : values = values' := Option.some.inj (hinfo.symm.trans hvalues')
    obtain ⟨rfl, hlive⟩ := h key hkey value hvalue
    exact ⟨hstored key, hlive⟩

theorem submits_blank (hrow : s.infos vo.clientId = some none) (hinfo : vo.info = some values) :
    Submits s vo (step s vo) ↔ s.First values := by
  have hbefore (key : String) : s.stored vo.clientId key = none := by rw [stored, hrow]; rfl
  rw [step_of_blank hrow hinfo]
  constructor
  · intro h
    refine ⟨fun key hkey => ?_, fun key hkey value hvalue => ?_⟩
    · have hkept := (h.keeps key hkey).1 vo.clientId
      rwa [stored_self, hbefore] at hkept
    · exact (h.reaches values hinfo key hkey value hvalue).2
  · intro h
    obtain ⟨hfiltered, hlive⟩ := h
    refine ⟨fun key hkey => ⟨fun clientId => ?_, rfl⟩, fun values' hvalues' key hkey value hvalue =>
      ?_, fun hequal key => ?_⟩
    · by_cases hclient : clientId = vo.clientId
      · rw [hclient, stored_self, hbefore, hfiltered key hkey]
      · exact stored_of_ne hclient
    · obtain rfl : values = values' := Option.some.inj (hinfo.symm.trans hvalues')
      rw [stored_self, JsonObject.get, hvalue]
      exact ⟨rfl, hlive key hkey value hvalue⟩
    · have hnone : s.live key = none := (hequal key).symm.trans (hbefore key)
      change _ = s.live key
      rw [stored_self, hnone]
      cases hkey : filterCustomizeInfo key with
      | true => exact hfiltered key hkey
      | false =>
        rw [JsonObject.get]
        cases hvalue : values key with
        | none => rfl
        | some value => exact (hlive key hkey value hvalue).symm.trans hnone

theorem stored_merged (hrow : s.infos vo.clientId = some (some old))
    (hinfo : vo.info = some values) (key : String) :
    (step s vo).stored vo.clientId key =
      (JsonObject.putAll filterCustomizeInfo values old).toJSONString.get key := by
  rw [step_of_some hrow hinfo, stored_updater, stored_self]

theorem live_merged (hrow : s.infos vo.clientId = some (some old)) (hinfo : vo.info = some values)
    (key : String) :
    (step s vo).live key =
      s.customerInfo.bind fun customerInfo => (values.get key).or (customerInfo.get key) := by
  rw [step_of_some hrow hinfo, live_updater]
  rfl

/-- The row takes every value over, so the live token decides. -/
theorem submits_merged (hrow : s.infos vo.clientId = some (some old))
    (hinfo : vo.info = some values) :
    Submits s vo (step s vo) ↔
      (∀ key, filterCustomizeInfo key = true → (step s vo).live key = s.live key) ∧
      ∀ key, filterCustomizeInfo key = false → ∀ value, values key = some value →
        (step s vo).live key = value := by
  have hbefore (key : String) : s.stored vo.clientId key = old.get key := by rw [stored, hrow]; rfl
  have hkept (key : String) (hkey : filterCustomizeInfo key = true) :
      (step s vo).stored vo.clientId key = old.get key := by
    rw [stored_merged hrow hinfo, JsonObject.get_toJSONString,
      JsonObject.get_putAll_of_passedOver hkey]
  have hmerged (key : String) (hkey : filterCustomizeInfo key = false) {value : Option V}
      (hvalue : values key = some value) : (step s vo).stored vo.clientId key = value := by
    rw [stored_merged hrow hinfo, get_merged hkey, hvalue]
  constructor
  · intro h
    exact ⟨fun key hkey => (h.keeps key hkey).2, fun key hkey value hvalue =>
      (h.reaches values hinfo key hkey value hvalue).2⟩
  · intro h
    obtain ⟨hfiltered, hlive⟩ := h
    refine ⟨fun key hkey => ⟨fun clientId => ?_, hfiltered key hkey⟩,
      fun values' hvalues' key hkey value hvalue => ?_, fun hequal key => ?_⟩
    · by_cases hclient : clientId = vo.clientId
      · rw [hclient, hkept key hkey, hbefore]
      · rw [step_of_some hrow hinfo, stored_updater]
        exact stored_of_ne hclient
    · obtain rfl : values = values' := Option.some.inj (hinfo.symm.trans hvalues')
      exact ⟨hmerged key hkey hvalue, hlive key hkey value hvalue⟩
    · have hold : old.get key = s.live key := (hbefore key).symm.trans (hequal key)
      cases hkey : filterCustomizeInfo key with
      | true => rw [hkept key hkey, hfiltered key hkey, hold]
      | false =>
        cases hvalue : values key with
        | some value => rw [hmerged key hkey hvalue, hlive key hkey value hvalue]
        | none =>
          have hget : values.get key = none := by rw [JsonObject.get, hvalue]; rfl
          rw [stored_merged hrow hinfo, get_merged hkey, hvalue, live_merged hrow hinfo, hget]
          simp only [Option.none_or]
          exact hold

theorem submits_some (hrow : s.infos vo.clientId = some (some old)) (hinfo : vo.info = some values) :
    Submits s vo (step s vo) ↔ s.Merges values := by
  have hget {key : String} {value : Option V} (hvalue : values key = some value) :
      values.get key = value := by rw [JsonObject.get, hvalue]; rfl
  rw [submits_merged hrow hinfo, Merges]
  simp only [live_merged hrow hinfo]
  simp only [live]
  cases s.customerInfo with
  | none =>
    simp only [Option.bind_none, implies_true, true_and]
    constructor
    · intro h key hkey
      cases hvalue : values key with
      | none => rw [JsonObject.get, hvalue]; rfl
      | some value => rw [hget hvalue, h key hkey value hvalue]
    · intro h key hkey value hvalue
      rw [← hget hvalue, h key hkey]
  | some customerInfo =>
    simp only [Option.bind_some]
    constructor
    · intro h
      refine ⟨fun key hkey value hvalue => ?_, fun key hkey hnull => ?_⟩
      · have hsame := h.1 key hkey
        rw [hvalue, Option.some_or] at hsame
        exact hsame.symm
      · have hnone := h.2 key hkey none hnull
        rwa [hget hnull, Option.none_or] at hnone
    · intro h
      refine ⟨fun key hkey => ?_, fun key hkey value hvalue => ?_⟩
      · cases hvalue : values.get key with
        | none => rw [Option.none_or]
        | some value => rw [Option.some_or, h.1 key hkey value hvalue]
      · rw [hget hvalue]
        cases value with
        | none => rw [Option.none_or, h.2 key hkey hvalue]
        | some value => rw [Option.some_or]

theorem submits_step (s : Servers V) (vo : UserCustomizeInfoVO V) :
    Submits s vo (step s vo) ↔ s.Heard vo := by
  unfold Heard
  cases hinfo : vo.info with
  | none =>
    rw [step_of_noInfo hinfo]
    refine iff_of_true ⟨fun _ _ => ⟨fun _ => rfl, rfl⟩, fun _ h => ?_, fun hequal => hequal⟩
      fun _ h => (by cases h)
    rw [hinfo] at h
    cases h
  | some values =>
    simp only [Option.some.injEq, forall_eq']
    cases hrow : s.infos vo.clientId with
    | none =>
      rw [step_of_noRow hrow]
      exact submits_noRow hrow hinfo
    | some info =>
      cases info with
      | none => exact submits_blank hrow hinfo
      | some old => exact submits_some hrow hinfo

end Ways

/-- Along a run every update submits its values exactly if every one is heard. -/
theorem updates_submit_iff (s : Servers V) (vos : List (UserCustomizeInfoVO V)) :
    Along step (fun s vo => Submits s vo (step s vo)) s vos ↔ Along step Heard s vos :=
  along_congr submits_step s vos

/-- What no update touches is after a run as it was before. -/
theorem keeps_run {s : Servers V} {vos : List (UserCustomizeInfoVO V)}
    (h : Along step (fun s vo => Submits s vo (step s vo)) s vos) {key : String}
    (hkey : filterCustomizeInfo key = true) :
    (∀ clientId, (run step s vos).stored clientId key = s.stored clientId key) ∧
      (run step s vos).live key = s.live key := by
  induction vos generalizing s with
  | nil => exact ⟨fun _ => rfl, rfl⟩
  | cons vo vos ih =>
    obtain ⟨hstored, hlive⟩ := h.1.keeps key hkey
    obtain ⟨hstoredRun, hliveRun⟩ := ih h.2
    exact ⟨fun clientId => (hstoredRun clientId).trans (hstored clientId), hliveRun.trans hlive⟩

/-- An enabled user, whose info and customer info are equal. -/
def enabledUser : Servers Bool where
  infos _ := some (some fun key => if key = "isEnabled" then some (some true) else none)
  idToken := some "t"
  authorizeInfo token := if token = "t" then
    some ⟨"a", some fun key => if key = "isEnabled" then some (some true) else none⟩ else none

/-- The live customer info takes a filtered key over. -/
theorem not_updates_submit :
    ¬ ∀ (s : Servers Bool) (vos : List (UserCustomizeInfoVO Bool)), s.customerInfo.isSome →
      Along step (fun s vo => Submits s vo (step s vo)) s vos := by
  intro h
  have hsubmits := (h enabledUser
    [⟨"c", some fun key => if key = "isEnabled" then some (some false) else none⟩] rfl).1
  have hlive := (hsubmits.keeps "isEnabled" rfl).2
  revert hlive
  decide +kernel

end Servers

end BigPlan.User
