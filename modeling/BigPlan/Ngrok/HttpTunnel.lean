import Mathlib.Data.List.Nodup
import BigPlan.Lib.Runs
import BigPlan.Ngrok.LogicHandler

/-!
# Answers through the HTTP tunnel

The connection of a forwarded request stays in the map under the id of its message, so each
response with that id is written to it, whoever sends it.
-/
namespace BigPlan.Ngrok

open Lib.Java Lib.Runs

/-- The values of `UUID.randomUUID`, one for each request to the server. -/
structure UUIDs where
  value : ℕ → String
  injective : Function.Injective value

section Tunnel

variable (Ctx : Type)

/-- An external request, and the connection of the client that it was forwarded to. -/
structure ExternalRequest where
  id : String
  connection : Ctx
  forwardedTo : Option Ctx

/-- A response to an external request; without a sender it is the server's own. -/
structure Response where
  id : String
  connection : Ctx
  sender : Option Ctx

structure HttpTunnel where
  handler : LogicHandler Ctx
  drawn : ℕ
  closed : List Ctx
  requests : List (ExternalRequest Ctx)
  responses : List (Response Ctx)

end Tunnel

namespace HttpTunnel

variable {Ctx : Type}

def start : HttpTunnel Ctx := ⟨⟨fun _ => none, fun _ => none⟩, 0, [], [], []⟩

section Step

variable [DecidableEq Ctx] (codecs : Codecs) (uuids : UUIDs)

/-- What was written; nothing arrives on a connection that is closed. -/
def wrote (s : HttpTunnel Ctx) (ctx : Ctx) (handler : LogicHandler Ctx) (written : Written Ctx) :
    HttpTunnel Ctx :=
  let s : HttpTunnel Ctx := { s with handler, drawn := s.drawn + 1 }
  match written with
  | .nothing => s
  | .registered _ _ => s
  | .forwarded messageId clientConnection _ =>
    { s with requests := ⟨messageId, ctx, some clientConnection⟩ :: s.requests }
  | .notFound messageId connection _ =>
    { s with
      requests := ⟨messageId, ctx, none⟩ :: s.requests
      responses := ⟨messageId, connection, none⟩ :: s.responses }
  | .answered messageId connection _ =>
    if connection ∈ s.closed then s
    else { s with responses := ⟨messageId, connection, some ctx⟩ :: s.responses }

/-- An exception closes the connection that the request came on. -/
def step (s : HttpTunnel Ctx) (received : Ctx × FullHttpRequest) : HttpTunnel Ctx :=
  let randomUUID := uuids.value s.drawn
  if received.1 ∈ s.closed then s
  else
    match (decode codecs randomUUID received.2).bind fun message =>
        s.handler.channelRead0 codecs randomUUID received.1 message with
    | some (handler, written) => s.wrote received.1 handler written
    | none => { s with closed := received.1 :: s.closed, drawn := s.drawn + 1 }

end Step

section Property

variable {Peer : Type} (peer : Ctx → Peer)

/-- No request has two responses, and each response was written to the connection of its request
and comes from the peer that the request was forwarded to. -/
structure AnswersOnce (s : HttpTunnel Ctx) : Prop where
  once : (s.responses.map Response.id).Nodup
  matched : ∀ r ∈ s.responses, ∃ q ∈ s.requests, q.id = r.id ∧ r.connection = q.connection ∧
    ∀ sender, r.sender = some sender →
      ∃ client, q.forwardedTo = some client ∧ peer sender = peer client

/-- A response that can be written, to a forwarded request whose connection is open, is the first
one and comes from the peer that the request was forwarded to. -/
def Expected (codecs : Codecs) (uuids : UUIDs) (s : HttpTunnel Ctx)
    (received : Ctx × FullHttpRequest) : Prop :=
  received.1 ∉ s.closed → ∀ resp,
    decode codecs (uuids.value s.drawn) received.2 = some (.clientResponse resp) →
    LogicHandler.responseClientResponse codecs resp ≠ none →
    ∀ q ∈ s.requests, resp.messageId = some q.id → ∀ client, q.forwardedTo = some client →
      q.connection ∉ s.closed →
        q.id ∉ s.responses.map Response.id ∧ peer received.1 = peer client

end Property

/-- The map has the connection of each request that was forwarded, and the ids are those drawn. -/
structure Mapped (uuids : UUIDs) (s : HttpTunnel Ctx) : Prop where
  map_iff : ∀ id connection, s.handler.MESSAGE_ID_CONNECTION_MAP id = some connection ↔
    ∃ q ∈ s.requests, q.id = id ∧ q.connection = connection ∧ q.forwardedTo ≠ none
  ids : (s.requests.map ExternalRequest.id).Nodup
  drawn : ∀ q ∈ s.requests, ∃ n, n < s.drawn ∧ q.id = uuids.value n

theorem mapped_start (uuids : UUIDs) : (start : HttpTunnel Ctx).Mapped uuids where
  map_iff _ _ := by simp [start]
  ids := List.nodup_nil
  drawn _ h := by cases h

/-! ## One step -/

section Cases

variable (codecs : Codecs) (uuids : UUIDs) (s : HttpTunnel Ctx) (ctx : Ctx)
  (request : FullHttpRequest)

/-- What a step can do to the log and to the map of the message ids: nothing, forward a request
or answer that there is no such client, or pass a response on. -/
inductive Does (s' : HttpTunnel Ctx) : Prop where
  | nothing (requests : s'.requests = s.requests) (responses : s'.responses = s.responses)
      (map : s'.handler.MESSAGE_ID_CONNECTION_MAP = s.handler.MESSAGE_ID_CONNECTION_MAP)
      (drawn : s.drawn ≤ s'.drawn)
  | forwarded (client : Ctx)
      (requests : s'.requests = ⟨uuids.value s.drawn, ctx, some client⟩ :: s.requests)
      (responses : s'.responses = s.responses)
      (map : s'.handler.MESSAGE_ID_CONNECTION_MAP =
        Function.update s.handler.MESSAGE_ID_CONNECTION_MAP (uuids.value s.drawn) (some ctx))
      (drawn : s'.drawn = s.drawn + 1)
  | notFound (requests : s'.requests = ⟨uuids.value s.drawn, ctx, none⟩ :: s.requests)
      (responses : s'.responses = ⟨uuids.value s.drawn, ctx, none⟩ :: s.responses)
      (map : s'.handler.MESSAGE_ID_CONNECTION_MAP = s.handler.MESSAGE_ID_CONNECTION_MAP)
      (drawn : s'.drawn = s.drawn + 1)
  | answered (resp : ClientResponse) (id : String) (connection : Ctx) (isOpen : ctx ∉ s.closed)
      (decoded : decode codecs (uuids.value s.drawn) request = some (.clientResponse resp))
      (messageId : resp.messageId = some id)
      (written : LogicHandler.responseClientResponse codecs resp ≠ none)
      (known : s.handler.MESSAGE_ID_CONNECTION_MAP id = some connection)
      (reached : connection ∉ s.closed) (requests : s'.requests = s.requests)
      (responses : s'.responses = ⟨id, connection, some ctx⟩ :: s.responses)
      (map : s'.handler.MESSAGE_ID_CONNECTION_MAP = s.handler.MESSAGE_ID_CONNECTION_MAP)
      (drawn : s.drawn ≤ s'.drawn)

variable {codecs uuids s ctx request}

theorem decode_serverRequest {randomUUID : String} {message : ServerRequest}
    (h : decode codecs randomUUID request = some (.serverRequest message)) :
    message.id = randomUUID := by
  unfold decode at h
  by_cases hregister : contains request.headers "x-register" = true
  · rw [if_pos hregister] at h
    cases hparse : codecs.parseObject (newString request.content) with
    | none => simp [hparse] at h
    | some clientInfo => simp [hparse] at h
  by_cases hngrok : contains request.headers "x-ngrok" = true
  · rw [if_neg hregister, if_pos hngrok] at h
    cases hbean : codecs.byte2Bean request.content with
    | none => simp [hbean] at h
    | some resp => simp [hbean] at h
  · rw [if_neg hregister, if_neg hngrok] at h
    cases h
    rfl

theorem Mapped.fresh (h : s.Mapped uuids) :
    uuids.value s.drawn ∉ s.requests.map ExternalRequest.id := by
  intro hmem
  obtain ⟨q, hq, hid⟩ := List.mem_map.mp hmem
  obtain ⟨n, hn, hvalue⟩ := h.drawn q hq
  have heq := uuids.injective (hvalue.symm.trans hid)
  omega

theorem Mapped.drawn_cons (h : s.Mapped uuids) (forwardedTo : Option Ctx) :
    ∀ q ∈ (⟨uuids.value s.drawn, ctx, forwardedTo⟩ :: s.requests : List (ExternalRequest Ctx)),
      ∃ n, n < s.drawn + 1 ∧ q.id = uuids.value n := by
  refine List.forall_mem_cons.mpr ⟨⟨s.drawn, Nat.lt_succ_self _, rfl⟩, fun q hq => ?_⟩
  obtain ⟨n, hn, hvalue⟩ := h.drawn q hq
  exact ⟨n, Nat.lt_succ_of_lt hn, hvalue⟩

/-- A step that leaves requests and map alone. -/
theorem Mapped.congr (h : s.Mapped uuids) {s' : HttpTunnel Ctx} (hrequests : s'.requests = s.requests)
    (hmap : s'.handler.MESSAGE_ID_CONNECTION_MAP = s.handler.MESSAGE_ID_CONNECTION_MAP)
    (hdrawn : s.drawn ≤ s'.drawn) : s'.Mapped uuids where
  map_iff id connection := by
    rw [hrequests, hmap]
    exact h.map_iff id connection
  ids := by
    rw [hrequests]
    exact h.ids
  drawn q hq := by
    rw [hrequests] at hq
    obtain ⟨n, hn, hvalue⟩ := h.drawn q hq
    exact ⟨n, Nat.lt_of_lt_of_le hn hdrawn, hvalue⟩

theorem mapped_does (h : s.Mapped uuids) {s' : HttpTunnel Ctx}
    (hdoes : Does codecs uuids s ctx request s') : s'.Mapped uuids := by
  cases hdoes with
  | nothing requests responses map drawn => exact h.congr requests map drawn
  | answered resp id connection isOpen decoded messageId written known reached requests responses
      map drawn => exact h.congr requests map drawn
  | notFound requests responses map drawn =>
    refine ⟨fun id connection => ?_, ?_, ?_⟩
    · rw [map, requests, h.map_iff]
      simp
    · rw [requests]
      exact List.nodup_cons.mpr ⟨h.fresh, h.ids⟩
    · rw [requests, drawn]
      exact h.drawn_cons none
  | forwarded client requests responses map drawn =>
    refine ⟨fun id connection => ?_, ?_, ?_⟩
    · rw [map, requests]
      by_cases hid : id = uuids.value s.drawn
      · subst hid
        rw [Function.update_self]
        constructor
        · intro hconnection
          exact ⟨_, List.mem_cons_self, rfl, Option.some.inj hconnection, Option.some_ne_none _⟩
        · intro hrequest
          obtain ⟨q, hq, hid, hconnection, -⟩ := hrequest
          rcases List.mem_cons.mp hq with rfl | hq
          · rw [← hconnection]
          · exact absurd (List.mem_map.mpr ⟨q, hq, hid⟩) h.fresh
      · rw [Function.update_of_ne hid, h.map_iff]
        constructor
        · intro hrequest
          obtain ⟨q, hq, hrest⟩ := hrequest
          exact ⟨q, List.mem_cons_of_mem _ hq, hrest⟩
        · intro hrequest
          obtain ⟨q, hq, hid', hrest⟩ := hrequest
          rcases List.mem_cons.mp hq with rfl | hq
          · exact absurd hid'.symm hid
          · exact ⟨q, hq, hid', hrest⟩
    · rw [requests]
      exact List.nodup_cons.mpr ⟨h.fresh, h.ids⟩
    · rw [requests, drawn]
      exact h.drawn_cons (some client)

variable [DecidableEq Ctx]

/-- A response that can be written is passed on to the connection in the map. -/
theorem step_answered {resp : ClientResponse} {id : String} {connection : Ctx}
    (hopen : ctx ∉ s.closed)
    (hdecode : decode codecs (uuids.value s.drawn) request = some (.clientResponse resp))
    (hid : resp.messageId = some id)
    (hwritten : LogicHandler.responseClientResponse codecs resp ≠ none)
    (hmap : s.handler.MESSAGE_ID_CONNECTION_MAP id = some connection)
    (hreached : connection ∉ s.closed) :
    s.step codecs uuids (ctx, request) =
      { s with
        drawn := s.drawn + 1
        responses := ⟨id, connection, some ctx⟩ :: s.responses } := by
  obtain ⟨response, hresponse⟩ := Option.ne_none_iff_exists'.mp hwritten
  simp [step, hopen, hdecode, LogicHandler.channelRead0, hid, hmap, hresponse, wrote, hreached]

theorem step_does (codecs : Codecs) (uuids : UUIDs) (s : HttpTunnel Ctx) (ctx : Ctx)
    (request : FullHttpRequest) :
    Does codecs uuids s ctx request (s.step codecs uuids (ctx, request)) := by
  by_cases hclosed : ctx ∈ s.closed
  · rw [step, if_pos hclosed]
    exact .nothing rfl rfl rfl (Nat.le_refl _)
  cases hdecode : decode codecs (uuids.value s.drawn) request with
  | none =>
    simp only [step, if_neg hclosed, hdecode, Option.bind_none]
    exact .nothing rfl rfl rfl (Nat.le_succ _)
  | some message =>
    cases message with
    | clientInfo clientInfo =>
      simp only [step, if_neg hclosed, hdecode, Option.bind_some, LogicHandler.channelRead0]
      cases clientInfo.id with
      | none => exact .nothing rfl rfl rfl (Nat.le_succ _)
      | some id => exact .nothing rfl rfl rfl (Nat.le_succ _)
    | serverRequest message =>
      have hid := decode_serverRequest hdecode
      simp only [step, if_neg hclosed, hdecode, Option.bind_some, LogicHandler.channelRead0]
      cases ((parseClientId message.uri).filter (· != "")).bind s.handler.CONNECTION_MAP with
      | none =>
        simp only [wrote, hid]
        exact .notFound rfl rfl rfl rfl
      | some client =>
        simp only [wrote, hid]
        exact .forwarded client rfl rfl rfl rfl
    | clientResponse resp =>
      cases hid : resp.messageId with
      | none =>
        simp only [step, if_neg hclosed, hdecode, Option.bind_some, LogicHandler.channelRead0, hid]
        exact .nothing rfl rfl rfl (Nat.le_succ _)
      | some id =>
        cases hmap : s.handler.MESSAGE_ID_CONNECTION_MAP id with
        | none =>
          simp only [step, if_neg hclosed, hdecode, Option.bind_some, LogicHandler.channelRead0,
            hid, bind, hmap, pure, wrote]
          exact .nothing rfl rfl rfl (Nat.le_succ _)
        | some connection =>
          cases hresponse : LogicHandler.responseClientResponse codecs resp with
          | none =>
            simp only [step, if_neg hclosed, hdecode, Option.bind_some, LogicHandler.channelRead0,
              hid, bind, hmap, hresponse, Option.bind_none]
            exact .nothing rfl rfl rfl (Nat.le_succ _)
          | some response =>
            by_cases hreached : connection ∈ s.closed
            · simp only [step, if_neg hclosed, hdecode, Option.bind_some,
                LogicHandler.channelRead0, hid, bind, hmap, hresponse, pure, wrote,
                if_pos hreached]
              exact .nothing rfl rfl rfl (Nat.le_succ _)
            · have hwritten : LogicHandler.responseClientResponse codecs resp ≠ none := by
                rw [hresponse]
                exact Option.some_ne_none _
              rw [step_answered hclosed hdecode hid hwritten hmap hreached]
              exact .answered resp id connection hclosed hdecode hid hwritten hmap hreached rfl rfl
                rfl (Nat.le_succ _)

end Cases

/-! ## Answers -/

section Answers

variable {Peer : Type} {peer : Ctx → Peer} {codecs : Codecs} {uuids : UUIDs} {s : HttpTunnel Ctx}
  {ctx : Ctx} {request : FullHttpRequest}

theorem AnswersOnce.request_of_mem (h : s.AnswersOnce peer) {id : String}
    (hid : id ∈ s.responses.map Response.id) : id ∈ s.requests.map ExternalRequest.id := by
  obtain ⟨r, hr, rfl⟩ := List.mem_map.mp hid
  obtain ⟨q, hq, hid, -⟩ := h.matched r hr
  exact List.mem_map.mpr ⟨q, hq, hid⟩

/-- A request more. -/
theorem AnswersOnce.mono (h : s.AnswersOnce peer) {s' : HttpTunnel Ctx}
    (hrequests : s.requests ⊆ s'.requests) (hresponses : s'.responses = s.responses) :
    s'.AnswersOnce peer where
  once := by
    rw [hresponses]
    exact h.once
  matched r hr := by
    rw [hresponses] at hr
    obtain ⟨q, hq, hrest⟩ := h.matched r hr
    exact ⟨q, hrequests hq, hrest⟩

/-- A response more, to a request that had none. -/
theorem AnswersOnce.cons (h : s.AnswersOnce peer) {s' : HttpTunnel Ctx} {r : Response Ctx}
    (hrequests : s.requests ⊆ s'.requests) (hresponses : s'.responses = r :: s.responses)
    (hnew : r.id ∉ s.responses.map Response.id)
    (hmatched : ∃ q ∈ s'.requests, q.id = r.id ∧ r.connection = q.connection ∧
      ∀ sender, r.sender = some sender →
        ∃ client, q.forwardedTo = some client ∧ peer sender = peer client) :
    s'.AnswersOnce peer where
  once := by
    rw [hresponses]
    exact List.nodup_cons.mpr ⟨hnew, h.once⟩
  matched r' hr' := by
    rw [hresponses] at hr'
    rcases List.mem_cons.mp hr' with rfl | hr'
    · exact hmatched
    · obtain ⟨q, hq, hrest⟩ := h.matched r' hr'
      exact ⟨q, hrequests hq, hrest⟩

theorem answersOnce_does (hmapped : s.Mapped uuids) (h : s.AnswersOnce peer)
    (hexpected : s.Expected peer codecs uuids (ctx, request)) {s' : HttpTunnel Ctx}
    (hdoes : Does codecs uuids s ctx request s') : s'.AnswersOnce peer := by
  cases hdoes with
  | nothing requests responses map drawn => exact h.mono (by rw [requests]; simp) responses
  | forwarded client requests responses map drawn =>
    exact h.mono (by rw [requests]; exact List.subset_cons_self _ _) responses
  | notFound requests responses map drawn =>
    refine h.cons (by rw [requests]; exact List.subset_cons_self _ _) responses
      (fun hmem => hmapped.fresh (h.request_of_mem hmem)) ?_
    rw [requests]
    exact ⟨_, List.mem_cons_self, rfl, rfl, fun sender hsender => (by cases hsender)⟩
  | answered resp id connection isOpen decoded messageId written known reached requests responses
      map drawn =>
    obtain ⟨q, hq, hid, hconnection, hforwarded⟩ := (hmapped.map_iff id connection).mp known
    obtain ⟨client, hclient⟩ := Option.ne_none_iff_exists'.mp hforwarded
    subst hid hconnection
    obtain ⟨hnew, hpeer⟩ := hexpected isOpen resp decoded written q hq messageId client hclient
      reached
    refine h.cons (by rw [requests]; simp) responses hnew ⟨q, by rwa [requests], rfl, rfl, ?_⟩
    intro sender hsender
    cases hsender
    exact ⟨client, hclient, hpeer⟩

variable [DecidableEq Ctx]

theorem not_answersOnce_step (hmapped : s.Mapped uuids)
    (hexpected : ¬ s.Expected peer codecs uuids (ctx, request)) :
    ¬ (s.step codecs uuids (ctx, request)).AnswersOnce peer := by
  unfold Expected at hexpected
  push Not at hexpected
  obtain ⟨hopen, resp, hdecode, hwritten, q, hq, hid, client, hclient, hreached, hbroken⟩ :=
    hexpected
  have hmap := (hmapped.map_iff q.id q.connection).mpr ⟨q, hq, rfl, rfl, by simp [hclient]⟩
  rw [step_answered hopen hdecode hid hwritten hmap hreached]
  intro h
  have hnew := (List.nodup_cons.mp h.once).1
  obtain ⟨q', hq', hid', -, hsender⟩ := h.matched _ List.mem_cons_self
  cases List.inj_on_of_nodup_map hmapped.ids hq' hq hid'
  obtain ⟨client', hclient', hpeer⟩ := hsender ctx rfl
  cases hclient.symm.trans hclient'
  exact hbroken hnew hpeer

/-- Throughout a run requests are answered once exactly if every response is expected. -/
theorem answersOnce_iff (peer : Ctx → Peer) (codecs : Codecs) (uuids : UUIDs)
    (received : List (Ctx × FullHttpRequest)) :
    Throughout (step codecs uuids) (AnswersOnce peer) start received ↔
      Along (step codecs uuids) (Expected peer codecs uuids) start received := by
  refine throughout_iff_along (fun _ s => s.Mapped uuids ∧ s.AnswersOnce peer) (fun _ _ h => h.2)
    (fun s a _ h hexpected => ?_) (fun _ _ _ h => not_answersOnce_step h.1)
    ⟨mapped_start uuids, ?_⟩
  · have hdoes := step_does codecs uuids s a.1 a.2
    exact ⟨mapped_does h.1 hdoes, answersOnce_does h.1 h.2 hexpected hdoes⟩
  · exact ⟨List.nodup_nil, fun r hr => (by cases hr)⟩

end Answers

/-! ## A response that is sent twice -/

/-- Codecs for a content that is the client id or the message id. -/
def plainCodecs : Codecs where
  parseObject text := some ⟨some text⟩
  toJSONString serverId := serverId
  byte2Bean bytes := some {
    messageId := some (newString bytes)
    code := 200
    reasonPhrase := some "OK"
    protocolVersion := some "HTTP/1.1"
    headers := some []
    trailingHeaders := some []
    content := none }
  bean2Byte _ := some []
  httpVersion version := version
  httpResponseStatus code reasonPhrase := reasonPhrase.map fun reasonPhrase => (code, reasonPhrase)
  header entry := entry.1.bind fun key => entry.2.map fun value => (key, value)

/-- Ids that differ in length. -/
def unaryIds : UUIDs where
  value n := String.ofList (List.replicate n 'a')
  injective m n h := by
    have hlength := congrArg List.length (String.ofList_injective h)
    simpa using hlength

def plainRequest (uri : String) (headers : Auth.Headers) (content : String) : FullHttpRequest where
  method := "POST"
  protocolVersion := "HTTP/1.1"
  uri := uri
  headers := headers
  trailingHeaders := []
  content := getBytes (some content)

/-- A client registers and is asked, and answers twice. -/
def answersTwice : List (ℕ × FullHttpRequest) :=
  [(1, plainRequest "" [("x-register", "1")] "c"), (2, plainRequest "/c/d" [] ""),
    (1, plainRequest "" [("x-ngrok", "1")] "a"), (1, plainRequest "" [("x-ngrok", "1")] "a")]

theorem not_answersOnce :
    ¬ ∀ (Ctx Peer : Type) (_ : DecidableEq Ctx) (peer : Ctx → Peer) (codecs : Codecs)
      (uuids : UUIDs) (received : List (Ctx × FullHttpRequest)),
      Throughout (step codecs uuids) (AnswersOnce peer) start received := by
  intro h
  have honce := (h ℕ ℕ inferInstance id plainCodecs unaryIds answersTwice).last.once
  have hids : (run (step plainCodecs unaryIds) start answersTwice).responses.map Response.id =
      ["a", "a"] := by decide +kernel
  rw [hids] at honce
  exact absurd honce (by decide)

end HttpTunnel

end BigPlan.Ngrok
