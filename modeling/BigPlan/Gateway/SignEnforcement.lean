import BigPlan.Gateway.SecurityFilter

/-!
# Requests that must be signed

The filter enforces a signature if the callback reads the whole body, the body is not
blank, and its signature is valid. A blank body and an invalid signature are forwarded,
and so is a body that had not arrived when the callback looked.
-/
namespace BigPlan.Gateway

open Lib.Java Lib.Runs Auth

def Request.bodyText (request : Request) : String := newString request.body.flatten

/-- The chain is called only after `checkSign` accepted the whole body. A callback that
ends without calling it leaves an error. -/
def Enforced (request : Request) (x : Exchange) : Prop :=
  (x.forwarded.isSome → x.signChecked = some (request.bodyText, true)) ∧
    (x.phase = .returned ∨ x.phase = .thrown → x.forwarded = none →
      ∃ e, x.signal = some (.error e))

/-- What the callback must find when it reads the builder: the whole body, validly
signed, or a text on which the check throws while the sink still listens. -/
def ReadsSigned (services : Services) (request : Request) (x : Exchange) : Event → Prop
  | .bodyRead =>
    match x.phase with
    | .reading clientId =>
      isBlank (some x.sb) = false ∧
        (x.sb = request.bodyText ∧ verify services x.sb clientId = some true ∨
          verify services x.sb clientId = none ∧ x.inline = true)
    | _ => True
  | _ => True

instance (services : Services) (request : Request) (x : Exchange) (e : Event) :
    Decidable (ReadsSigned services request x e) := by
  unfold ReadsSigned
  split
  · split <;> infer_instance
  · infer_instance

/-- Whatever the checker will still answer is a card that requires a signature. -/
def AnswersSigned (events : List Event) : Prop :=
  ∀ inline result, Event.checked inline result ∈ events →
    ∃ accessCard, result = .success (some accessCard) ∧ accessCard.sign = some true

/-- How far an exchange has come without breaking the enforcement. -/
inductive Stage (request : Request) (events : List Event) (x : Exchange) : Prop where
  | checking (hphase : x.phase = .checking) (hforwarded : x.forwarded = none)
      (hsignal : x.signal = none) (hunchecked : x.signChecked = none)
      (hanswers : AnswersSigned events)
  | reading (clientId : Option String) (hphase : x.phase = .reading clientId)
      (hforwarded : x.forwarded = none) (hsignal : x.signal = none)
      (hunchecked : x.signChecked = none)
  | ended (hphase : x.phase = .returned ∨ x.phase = .thrown) (henforced : Enforced request x)

section Stages

variable {services : Services} {request : Request} {events : List Event} {x : Exchange}

theorem enforced_of_pending (hforwarded : x.forwarded = none) (hreturned : x.phase ≠ .returned)
    (hthrown : x.phase ≠ .thrown) : Enforced request x :=
  ⟨by simp [hforwarded], fun h => (h.elim hreturned hthrown).elim⟩

theorem Stage.enforced (h : Stage request events x) : Enforced request x := by
  cases h with
  | checking hphase hforwarded =>
    exact enforced_of_pending hforwarded (by simp [hphase]) (by simp [hphase])
  | reading clientId hphase hforwarded =>
    exact enforced_of_pending hforwarded (by simp [hphase]) (by simp [hphase])
  | ended hphase henforced => exact henforced

/-- A card that requires a signature takes the exchange to the body. -/
theorem step_checked {inline : Bool} {accessCard : AccessCard} (hphase : x.phase = .checking)
    (hsign : accessCard.sign = some true) :
    step services x (.checked inline (.success (some accessCard))) =
      { x with
        inline
        checked := some (.success (some accessCard))
        headers := x.headers ++ cardHeader services accessCard
        phase := .reading accessCard.clientId } := by
  simp only [step, hphase, onSuccess, hsign]

/-- After the callback only the end of the chain still reaches the sink. -/
theorem step_ended (hphase : x.phase = .returned ∨ x.phase = .thrown) (e : Event) :
    step services x e = x ∨ x.forwarded.isSome ∧ step services x e = x.emit .success := by
  cases e with
  | checked inline result => rcases hphase with h | h <;> simp [step, h]
  | buffer => rcases hphase with h | h <;> simp [step, h]
  | bodyRead => rcases hphase with h | h <;> simp [step, h]
  | chainFinally =>
    rcases hphase with h | h
    · by_cases hf : x.forwarded.isSome
      · exact .inr ⟨hf, by simp [step, h, hf]⟩
      · exact .inl (by simp [step, h, hf])
    · exact .inl (by simp [step, h])

theorem enforced_step_ended (hphase : x.phase = .returned ∨ x.phase = .thrown)
    (h : Enforced request x) (e : Event) :
    Stage request events (step services x e) := by
  rcases step_ended hphase e with heq | ⟨hf, heq⟩
  · rw [heq]
    exact .ended hphase h
  · rw [heq]
    refine .ended hphase ⟨h.1, fun _ hnone => ?_⟩
    have hnone : x.forwarded = none := hnone
    simp [hnone] at hf

/-- Buffers and other events leave a reading exchange reading. -/
theorem step_reading {clientId : Option String} (hphase : x.phase = .reading clientId)
    {e : Event} (he : e ≠ .bodyRead) :
    (step services x e).phase = .reading clientId ∧
      (step services x e).forwarded = x.forwarded ∧ (step services x e).signal = x.signal ∧
        (step services x e).signChecked = x.signChecked := by
  cases e with
  | checked inline result => simp [step, hphase]
  | buffer => cases harr : x.arriving <;> simp [step, hphase, harr]
  | bodyRead => exact (he rfl).elim
  | chainFinally => simp [step, hphase]

/-- The end of the callback is safe exactly if it read a signed body. -/
theorem enforced_onBody {clientId : Option String} (hphase : x.phase = .reading clientId)
    (hforwarded : x.forwarded = none) (hsignal : x.signal = none)
    (hunchecked : x.signChecked = none) :
    Enforced request (onBody services x clientId) ↔
      ReadsSigned services request x .bodyRead := by
  simp only [ReadsSigned, hphase, onBody]
  cases hblank : isBlank (some x.sb) with
  | true => simp [Enforced, Exchange.forward, hunchecked]
  | false =>
    cases hverify : verify services x.sb clientId with
    | none =>
      cases hinline : x.inline <;>
        simp [Enforced, Exchange.throwing, Exchange.emit, hforwarded, hsignal, hinline]
    | some valid =>
      cases valid <;> simp [Enforced, Exchange.forward, Exchange.emit]

theorem phase_onBody (x : Exchange) (clientId : Option String) :
    (onBody services x clientId).phase = .returned ∨
      (onBody services x clientId).phase = .thrown := by
  unfold onBody
  split
  · exact .inl rfl
  · split
    · exact .inr rfl
    · exact .inl rfl

theorem AnswersSigned.tail {e : Event} (h : AnswersSigned (e :: events)) : AnswersSigned events :=
  fun inline result hmem => h inline result (List.mem_cons_of_mem e hmem)

/-- One event: the stage goes on exactly if a callback that reads finds a signed body. -/
theorem stage_step {e : Event} (h : Stage request (e :: events) x) :
    (ReadsSigned services request x e → Stage request events (step services x e)) ∧
      (¬ ReadsSigned services request x e → ¬ Enforced request (step services x e)) := by
  cases h with
  | checking hphase hforwarded hsignal hunchecked hanswers =>
    refine ⟨fun _ => ?_, fun hn => ?_⟩
    · cases e with
      | checked inline result =>
        obtain ⟨accessCard, rfl, hsign⟩ := hanswers inline result List.mem_cons_self
        rw [step_checked hphase hsign]
        exact .reading accessCard.clientId rfl hforwarded hsignal hunchecked
      | buffer | bodyRead | chainFinally =>
        simp only [step, hphase]
        exact .checking hphase hforwarded hsignal hunchecked hanswers.tail
    · cases e <;> simp [ReadsSigned, hphase] at hn
  | reading clientId hphase hforwarded hsignal hunchecked =>
    by_cases he : e = .bodyRead
    · subst he
      have hstep : step services x .bodyRead = onBody services x clientId := by
        simp only [step, hphase]
      rw [hstep, enforced_onBody hphase hforwarded hsignal hunchecked]
      refine ⟨fun hr => .ended (phase_onBody x clientId) ?_, id⟩
      exact (enforced_onBody hphase hforwarded hsignal hunchecked).mpr hr
    · obtain ⟨hphase', hforwarded', hsignal', hunchecked'⟩ := step_reading hphase he
      refine ⟨fun _ => .reading clientId hphase' (hforwarded' ▸ hforwarded)
        (hsignal' ▸ hsignal) (hunchecked' ▸ hunchecked), fun hn => ?_⟩
      cases e with
      | bodyRead => exact (he rfl).elim
      | checked | buffer | chainFinally => exact (hn trivial).elim
  | ended hphase henforced =>
    refine ⟨fun _ => enforced_step_ended hphase henforced e, fun hn => ?_⟩
    cases e <;> rcases hphase with h | h <;> simp [ReadsSigned, h] at hn

end Stages

/-- A request with a token for a card that requires a signature: in every run the filter
enforces the signature exactly if its callback finds a signed body. -/
theorem enforced_iff (services : Services) (request : Request) (events : List Event)
    (htoken : isBlank request.token = false) (hanswers : AnswersSigned events) :
    Throughout (step services) (Enforced request) (filter request) events ↔
      Along (step services) (ReadsSigned services request) (filter request) events := by
  have hstart : filter request = { headers := request.headers, arriving := request.body } := by
    simp [filter, htoken]
  apply throughout_iff_along (Stage request)
  · intro x as h
    exact h.enforced
  · intro x e as h
    exact (stage_step h).1
  · intro x e as h
    exact (stage_step h).2
  · rw [hstart]
    exact .checking rfl rfl rfl rfl hanswers

def signingCard : AccessCard := { userId := some 7, clientId := some "ac", sign := some true }

def signature : String := String.ofList (List.replicate 64 'A')

def signedBody : String := "\x7b\"sign\":\"" ++ signature ++ "\"\x7d"

/-- One client, one card, one body. -/
def signingServices : Services where
  get key := if key = "CLIENT_PRIVATE_KEY:ac" then some "key" else none
  decrypt data key :=
    if data = getBytes (some signature) ∧ key = "key" then some (getBytes (some "acac")) else none
  encodeCard accessCard := if accessCard = signingCard then some "CAcqAmFjMAE=" else none
  parseObject body :=
    if body = signedBody then some (some { entries := [("sign", some signature)], nodup := by simp })
    else none

def signedRequest : Request where
  headers := [("_token", "t")]
  body := [(getBytes (some signedBody)).take 20, (getBytes (some signedBody)).drop 20]

def bothBuffers : List Event :=
  [.checked false (.success (some signingCard)), .buffer, .buffer, .bodyRead, .chainFinally]

/-- A signed body that arrives in two buffers while the callback waits. -/
theorem enforced_bothBuffers :
    Throughout (step signingServices) (Enforced signedRequest) (filter signedRequest) bothBuffers ∧
      (run (step signingServices) (filter signedRequest) bothBuffers).signal = some .success := by
  have hrun : Along (step signingServices) (ReadsSigned signingServices signedRequest)
      (filter signedRequest) bothBuffers ∧
      (run (step signingServices) (filter signedRequest) bothBuffers).signal = some .success := by
    decide +kernel
  refine ⟨(enforced_iff signingServices signedRequest bothBuffers (by decide +kernel) ?_).mpr
    hrun.1, hrun.2⟩
  intro inline result hmem
  simp only [bothBuffers, List.mem_cons, Event.checked.injEq, reduceCtorEq, List.not_mem_nil,
    or_false, or_self] at hmem
  exact ⟨signingCard, hmem.2, rfl⟩

/-- A client without a private key: the check fails, the sink has its error, and the
request is forwarded all the same. -/
theorem forwards_unsigned :
    ¬ ∀ (services : Services) (request : Request) (events : List Event),
      isBlank request.token = false → AnswersSigned events →
        Throughout (step services) (Enforced request) (filter request) events := by
  intro h
  let services : Services :=
    { get := fun _ => none
      decrypt := fun _ _ => none
      encodeCard := fun _ => some "CAcqAmFjMAE="
      parseObject := fun _ => some (some { entries := [], nodup := List.nodup_nil }) }
  let request : Request :=
    { headers := [("_token", "t")], body := [getBytes (some "\x7b\x7d")] }
  have hthrough := h services request
    [.checked false (.success (some signingCard)), .buffer, .bodyRead] (by decide +kernel) (by
      intro inline result hmem
      simp only [List.mem_cons, Event.checked.injEq, reduceCtorEq, List.not_mem_nil, or_false,
        or_self] at hmem
      exact ⟨signingCard, hmem.2, rfl⟩)
  have hend := hthrough.last.1 (by decide +kernel)
  exact absurd hend (by decide +kernel)

end BigPlan.Gateway
