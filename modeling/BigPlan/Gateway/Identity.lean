import BigPlan.Gateway.SecurityFilter

/-!
# Identities behind the gateway

The filter adds its card after the headers of the caller, and a resource server reads
the first one. So a card or a source that the caller sent goes before the card of the
token, unless the aspect turns it away.
-/
namespace BigPlan.Gateway

open Lib.Java Lib.Runs Auth

/-- The card that the checker produced for the token of the request. -/
def Exchange.issued (x : Exchange) : Option AccessCard :=
  match x.checked with
  | some (.success accessCard) => accessCard
  | _ => none

/-- The value of the header that the gateway adds. -/
def cardValue (services : Services) (x : Exchange) : Option String :=
  x.issued.bind services.encodeCard

/-- The issued card as it leaves the codec in the resource server. -/
def ownCard (services : Services) (decodeCard : String → Option AccessCard) (x : Exchange) :
    Option AccessCard :=
  (cardValue services x).bind decodeCard

def ownHeader (services : Services) (x : Exchange) : Headers :=
  (cardValue services x).toList.map fun value => (ACCESS_CARD_HEADER, value)

/-! ## What the filter forwards -/

/-- The headers are those of the caller, and the one for the issued card after them. -/
structure Carries (services : Services) (request : Request) (x : Exchange) : Prop where
  headers : x.headers = request.headers ++ ownHeader services x
  forwarded : ∀ headers, x.forwarded = some headers → headers = x.headers
  checking : x.phase = .checking → x.checked = none ∧ x.forwarded = none

section Forwarded

variable {services : Services} {request : Request} {x : Exchange}

theorem Carries.forward (hheaders : x.headers = request.headers ++ ownHeader services x) :
    Carries services request x.forward :=
  ⟨hheaders, fun _ h => (Option.some.inj h).symm, fun h => nomatch h⟩

theorem Carries.emit (h : Carries services request x) (signal : Signal) :
    Carries services request (x.emit signal) :=
  ⟨h.headers, h.forwarded, h.checking⟩

theorem Carries.throwing (hheaders : x.headers = request.headers ++ ownHeader services x)
    (hforwarded : ∀ headers, x.forwarded = some headers → headers = x.headers) :
    Carries services request x.throwing := by
  unfold Exchange.throwing
  cases x.inline <;> exact ⟨hheaders, hforwarded, fun h => nomatch h⟩

theorem cardHeader_eq (accessCard : AccessCard) : cardHeader services accessCard =
    (services.encodeCard accessCard).toList.map fun value => (ACCESS_CARD_HEADER, value) := by
  unfold cardHeader
  cases services.encodeCard accessCard <;> rfl

theorem carries_onSuccess (h : Carries services request x) (hphase : x.phase = .checking)
    (inline : Bool) (accessCard : Option AccessCard) :
    Carries services request
      (onSuccess services { x with inline, checked := some (.success accessCard) } accessCard) := by
  have hheaders : x.headers = request.headers := by
    simp [h.headers, ownHeader, cardValue, Exchange.issued, (h.checking hphase).1]
  cases accessCard with
  | none => exact .forward (hheaders.trans (List.append_nil _).symm)
  | some accessCard =>
    have hadded : x.headers ++ cardHeader services accessCard = request.headers ++
        (services.encodeCard accessCard).toList.map fun value => (ACCESS_CARD_HEADER, value) := by
      rw [cardHeader_eq, hheaders]
    have hforwarded := (h.checking hphase).2
    cases hsign : accessCard.sign with
    | none =>
      simp only [onSuccess, hsign]
      refine .throwing ?_ (fun _ h => ?_)
      · exact hadded
      · exact nomatch hforwarded.symm.trans h
    | some sign =>
      cases sign with
      | false =>
        simp only [onSuccess, hsign]
        refine .forward ?_
        exact hadded
      | true =>
        simp only [onSuccess, hsign]
        exact ⟨hadded, fun _ h => (nomatch hforwarded.symm.trans h), fun h => nomatch h⟩

theorem carries_onBody (h : Carries services request x) (clientId : Option String) :
    Carries services request (onBody services x clientId) := by
  unfold onBody
  split
  · exact .forward h.headers
  · split
    · exact .throwing h.headers h.forwarded
    · split <;> exact .forward h.headers

theorem carries_step (h : Carries services request x) (e : Event) :
    Carries services request (step services x e) := by
  unfold step
  cases e with
  | checked inline result =>
    dsimp only
    split
    · rename_i hphase
      cases result with
      | success accessCard => exact carries_onSuccess h hphase inline accessCard
      | failure =>
        have hnone := (h.checking hphase).1
        have hforwarded := (h.checking hphase).2
        refine ⟨?_, by simp [Exchange.emit, hforwarded], fun h => nomatch h⟩
        have hheaders := h.headers
        simp only [ownHeader, cardValue, Exchange.issued, hnone] at hheaders
        exact hheaders
    · exact h
  | buffer =>
    dsimp only
    split
    · rename_i hphase _
      exact ⟨h.headers, h.forwarded, fun hc => by simp [hphase] at hc⟩
    · exact h
  | bodyRead =>
    dsimp only
    split
    · exact carries_onBody h _
    · exact h
  | chainFinally =>
    dsimp only
    split
    · split
      · exact h.emit _
      · exact h
    · exact h

theorem carries_run (services : Services) (request : Request) (events : List Event) :
    Carries services request (run (step services) (filter request) events) := by
  apply invariant_run
  · intro x e h
    exact carries_step h e
  · unfold filter
    split
    · exact ⟨by simp [Exchange.forward, ownHeader, cardValue, Exchange.issued],
        fun _ h => (Option.some.inj h).symm, fun h => nomatch h⟩
    · exact ⟨by simp [ownHeader, cardValue, Exchange.issued], fun _ h => (nomatch h), fun _ => ⟨rfl, rfl⟩⟩

theorem forwarded_eq {events : List Event} {forwarded : Headers}
    (h : (run (step services) (filter request) events).forwarded = some forwarded) :
    forwarded = request.headers ++
      ownHeader services (run (step services) (filter request) events) := by
  have hrun := carries_run services request events
  rw [hrun.forwarded _ h, hrun.headers]

end Forwarded

/-! ## Which card comes into force -/

section InForce

variable {services : Services} {decodeCard : String → Option AccessCard} {x : Exchange}

theorem getFirst_card (services : Services) (x : Exchange) (headers : Headers) :
    Headers.getFirst (headers ++ ownHeader services x) ACCESS_CARD_HEADER =
      (headers.getFirst ACCESS_CARD_HEADER).or (cardValue services x) := by
  have hname : sameName ACCESS_CARD_HEADER ACCESS_CARD_HEADER = true := beq_self_eq_true _
  rw [Headers.getFirst_append, ownHeader]
  cases cardValue services x <;> simp [Headers.getFirst, hname]

theorem getFirst_from (services : Services) (x : Exchange) (headers : Headers) :
    Headers.getFirst (headers ++ ownHeader services x) X_FROM_HEADER =
      headers.getFirst X_FROM_HEADER := by
  have hname : sameName ACCESS_CARD_HEADER X_FROM_HEADER = false := by decide +kernel
  rw [Headers.getFirst_append, ownHeader]
  cases cardValue services x <;> simp [Headers.getFirst, hname]

end InForce

/-- A source that the caller names stands for the issued card. -/
def SourceIsOwn (own : Option AccessCard) (headers : Headers) : Prop :=
  ∀ source, headers.getFirst X_FROM_HEADER = some source → isBlank (some source) = false →
    own = some (AccessCard.fromSource source)

/-- What the headers of the caller may hold: a card of its own only if it does not decode, is
turned away or is the issued one, and a source only if the gateway adds a card before it. -/
def Unforged (decodeCard : String → Option AccessCard)
    (checkFullScope : AuthResource → Option String) (authResource : AuthResource)
    (value : Option String) (headers : Headers) : Prop :=
  match headers.getFirst ACCESS_CARD_HEADER with
  | some encoded =>
    if isBlank (some encoded) then SourceIsOwn (value.bind decodeCard) headers
    else
      ∀ accessCard, decodeCard encoded = some accessCard →
        Admitted checkFullScope authResource accessCard → value.bind decodeCard = some accessCard
  | none => isBlank value = false ∨ SourceIsOwn (value.bind decodeCard) headers

/-- The caller sent no card, and no source that could matter. -/
def Untouched (value : Option String) (headers : Headers) : Prop :=
  headers.getFirst ACCESS_CARD_HEADER = none ∧
    (isBlank value = false ∨ isBlank (headers.getFirst X_FROM_HEADER) = true)

instance (value : Option String) (headers : Headers) : Decidable (Untouched value headers) :=
  inferInstanceAs (Decidable (_ ∧ _))

/-- The answer of the aspect to a request; `none` if its card does not decode. -/
def authorize (decodeCard : String → Option AccessCard)
    (checkFullScope : AuthResource → Option String) (authResource : AuthResource)
    (headers : Headers) : Option (Except Thrown Unit) :=
  (cardInForce decodeCard headers).map (before checkFullScope authResource)

section Identity

variable {services : Services} {decodeCard : String → Option AccessCard}
  {checkFullScope : AuthResource → Option String} {authResource : AuthResource}
  {own : Option AccessCard} {headers : Headers}

/-- Without a card in the header the source decides, and the empty card is turned away. -/
theorem own_iff_of_blank (hcard : isBlank (headers.getFirst ACCESS_CARD_HEADER) = true) :
    (∀ accessCard, cardInForce decodeCard headers = some accessCard →
      Admitted checkFullScope authResource accessCard → own = some accessCard) ↔
        SourceIsOwn own headers := by
  cases hsource : isBlank (headers.getFirst X_FROM_HEADER) with
  | true =>
    rw [cardInForce_of_none decodeCard hcard hsource]
    constructor
    · intro _ source h hb
      rw [← h, hsource] at hb
      cases hb
    · intro _ accessCard h hadmitted
      cases h
      exact (not_admitted_empty _ _ hadmitted).elim
  | false =>
    obtain ⟨source, h⟩ : ∃ source, headers.getFirst X_FROM_HEADER = some source := by
      cases h : headers.getFirst X_FROM_HEADER with
      | none => simp [h] at hsource
      | some source => exact ⟨source, rfl⟩
    rw [h] at hsource
    rw [cardInForce_of_source decodeCard hcard h hsource]
    constructor
    · intro howns source' h' _
      cases h.symm.trans h'
      exact howns _ rfl (admitted_fromSource _ _ source)
    · intro howns accessCard hc _
      cases hc
      exact howns source h hsource

theorem sourceIsOwn_congr {headers' : Headers}
    (h : headers'.getFirst X_FROM_HEADER = headers.getFirst X_FROM_HEADER) :
    SourceIsOwn own headers' ↔ SourceIsOwn own headers := by
  simp only [SourceIsOwn, h]

/-- The card that the aspect lets through is the issued one exactly if the caller forged
nothing. -/
theorem own_iff_unforged (x : Exchange) (headers : Headers) :
    (∀ accessCard, cardInForce decodeCard (headers ++ ownHeader services x) = some accessCard →
      Admitted checkFullScope authResource accessCard →
        ownCard services decodeCard x = some accessCard) ↔
      Unforged decodeCard checkFullScope authResource (cardValue services x) headers := by
  have hcard := getFirst_card services x headers
  have hsource := getFirst_from services x headers
  unfold Unforged
  cases hcaller : headers.getFirst ACCESS_CARD_HEADER with
  | some encoded =>
    rw [hcaller, Option.some_or] at hcard
    cases hblank : isBlank (some encoded) with
    | true =>
      dsimp only
      rw [own_iff_of_blank (by rw [hcard, hblank]), sourceIsOwn_congr hsource, if_pos hblank]
      rfl
    | false =>
      dsimp only
      rw [cardInForce_of_card decodeCard hcard hblank, hblank, if_neg Bool.false_ne_true]
      rfl
  | none =>
    rw [hcaller, Option.none_or] at hcard
    cases hvalue : cardValue services x with
    | none =>
      rw [own_iff_of_blank (by rw [hcard, hvalue]; rfl), sourceIsOwn_congr hsource, ownCard, hvalue]
      simp
    | some value =>
      rw [hvalue] at hcard
      cases hblank : isBlank (some value) with
      | true =>
        rw [own_iff_of_blank (by rw [hcard, hblank]), sourceIsOwn_congr hsource, ownCard, hvalue]
        simp
      | false =>
        rw [cardInForce_of_card decodeCard hcard hblank, ownCard, hvalue, Option.bind_some]
        exact ⟨fun _ => .inl rfl, fun _ _ hdecode _ => hdecode⟩

/-- The card of the token decides about an untouched request. -/
theorem cardInForce_untouched {x : Exchange} (h : Untouched (cardValue services x) headers) :
    cardInForce decodeCard (headers ++ ownHeader services x) =
      if isBlank (cardValue services x) then some AccessCard.createEmpty
      else ownCard services decodeCard x := by
  have hcard := getFirst_card services x headers
  rw [h.1, Option.none_or] at hcard
  cases hblank : isBlank (cardValue services x) with
  | true =>
    have hsource : isBlank (headers.getFirst X_FROM_HEADER) = true := by
      simpa [hblank] using h.2
    rw [cardInForce_of_none decodeCard (by rw [hcard, hblank]) (by rw [getFirst_from, hsource])]
    rfl
  | false =>
    cases hvalue : cardValue services x with
    | none => simp [hvalue] at hblank
    | some value =>
      rw [hvalue] at hcard hblank
      rw [cardInForce_of_card decodeCard hcard hblank, ownCard, hvalue]
      rfl

end Identity

/-- Behind the gateway, the aspect lets only the card of the request's own token through
exactly if the caller forged nothing. Two untouched requests whose tokens stand for the same
card get the same answer. -/
theorem identity_iff (services : Services) (decodeCard : String → Option AccessCard)
    (checkFullScope : AuthResource → Option String) (authResource : AuthResource)
    (request request' : Request) (events events' : List Event) {forwarded forwarded' : Headers}
    (h : (run (step services) (filter request) events).forwarded = some forwarded)
    (h' : (run (step services) (filter request') events').forwarded = some forwarded')
    (hsame : (run (step services) (filter request) events).issued =
      (run (step services) (filter request') events').issued) :
    ((∀ accessCard, cardInForce decodeCard forwarded = some accessCard →
        Admitted checkFullScope authResource accessCard →
          ownCard services decodeCard (run (step services) (filter request) events) =
            some accessCard) ↔
      Unforged decodeCard checkFullScope authResource
        (cardValue services (run (step services) (filter request) events)) request.headers) ∧
    (Untouched (cardValue services (run (step services) (filter request) events))
        request.headers →
      Untouched (cardValue services (run (step services) (filter request') events'))
        request'.headers →
      authorize decodeCard checkFullScope authResource forwarded =
        authorize decodeCard checkFullScope authResource forwarded') := by
  rw [forwarded_eq h, forwarded_eq h']
  refine ⟨own_iff_unforged _ _, fun hu hu' => ?_⟩
  have hvalue : cardValue services (run (step services) (filter request) events) =
      cardValue services (run (step services) (filter request') events') := by
    rw [cardValue, cardValue, hsame]
  rw [authorize, authorize, cardInForce_untouched hu, cardInForce_untouched hu', ownCard, ownCard,
    hvalue]

def readerCard : AccessCard :=
  { userId := some 7, customerInfo := some [], authorities := some ["a"], clientId := some "ac"
    sign := some false }

def readerServices : Services where
  get _ := none
  decrypt _ _ := none
  encodeCard accessCard := if accessCard = readerCard then some "CAcaACIBYSoCYWMwAA==" else none
  parseObject _ := none

def readerCodec (value : String) : Option AccessCard :=
  if value = "CAcaACIBYSoCYWMwAA==" then some readerCard else none

def readerScope (authResource : AuthResource) : Option String := some authResource.scope

/-- A request with a token, which may also name a source, and its forwarded headers. -/
def readerRequest (headers : Headers) : Request :=
  { headers := ("_token", "t") :: headers, body := [] }

def readerForwarded (headers : Headers) : Headers :=
  ("_token", "t") :: headers ++ [("_access_card", "CAcaACIBYSoCYWMwAA==")]

def readerChecked : List Event := [.checked false (.success (some readerCard)), .chainFinally]

/-- The source of the first request does not matter, and both requests are let through. -/
theorem identity_source : ∃ forwarded forwarded',
    (run (step readerServices) (filter (readerRequest [("_from", "x")])) readerChecked).forwarded =
      some forwarded ∧
    (run (step readerServices) (filter (readerRequest [])) readerChecked).forwarded =
      some forwarded' ∧
    authorize readerCodec readerScope { scope := "a", name := "a" } forwarded =
      authorize readerCodec readerScope { scope := "a", name := "a" } forwarded' ∧
    authorize readerCodec readerScope { scope := "a", name := "a" } forwarded = some (.ok ()) := by
  have h : (run (step readerServices) (filter (readerRequest [("_from", "x")]))
      readerChecked).forwarded = some (readerForwarded [("_from", "x")]) := by decide +kernel
  have h' : (run (step readerServices) (filter (readerRequest [])) readerChecked).forwarded =
      some (readerForwarded []) := by decide +kernel
  exact ⟨_, _, h, h', (identity_iff readerServices readerCodec readerScope _ _ _ _ _ h h'
    (by decide +kernel)).2 (by decide +kernel) (by decide +kernel), by decide +kernel⟩

/-- Without a token but with a source header, a request passes every protected method as
user 0. -/
theorem forged_source :
    ¬ ∀ (services : Services) (decodeCard : String → Option AccessCard)
      (checkFullScope : AuthResource → Option String) (authResource : AuthResource)
      (request : Request) (events : List Event) (forwarded : Headers),
      (run (step services) (filter request) events).forwarded = some forwarded →
        ∀ accessCard, cardInForce decodeCard forwarded = some accessCard →
          Admitted checkFullScope authResource accessCard →
            ownCard services decodeCard (run (step services) (filter request) events) =
              some accessCard := by
  intro h
  have howns := h readerServices readerCodec readerScope { scope := "a", name := "a" }
    { headers := [("_from", "x")], body := [] } [] [("_from", "x")] (by decide +kernel)
    (AccessCard.fromSource "x") (by decide +kernel) (admitted_fromSource _ _ _)
  exact absurd howns (by decide +kernel)

end BigPlan.Gateway
