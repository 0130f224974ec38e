import BigPlan.Ngrok.LogicHandler

/-!
# The URI through the tunnel

The server finds the id of the client between the separators of the URI, and the client takes as
much off the URI as its own name is long.
-/
namespace BigPlan.Ngrok

open Lib.Java

/-! ## `HttpResponseHandler` -/

structure HttpClient where
  name : String
  innerAddress : String
  innerPort : JInt

/-- The real URI takes the place of the message's own. It is kept in units, for a pair of units
may be cut. -/
structure HttpRequestClient where
  host : String
  port : JInt
  message : ServerRequest
  realUri : List ℕ
  connectionTimeout : JInt
  deriving DecidableEq, Repr

def units (str : String) : List ℕ := str.toList.flatMap utf16Units

/-- `String.substring`; behind the end it throws. -/
def substring (str : List ℕ) (beginIndex : ℕ) : Option (List ℕ) :=
  if beginIndex ≤ str.length then some (str.drop beginIndex) else none

namespace HttpResponseHandler

def SERVER_ID : String := "serverId"

/-- The client that is started for the request, if the message is one; an exception is `none`. -/
def channelRead0 (parseObject : String → Option (List String))
    (byte2Bean : List UInt8 → Option ServerRequest) (client : HttpClient)
    (response : HttpResponse) : Option (Option HttpRequestClient) :=
  if contains response.headers "x-register" then do
    let jsonObject ← parseObject (newString response.content)
    if SERVER_ID ∈ jsonObject then some none else request
  else request
where
  request := do
    let message ← byte2Bean response.content
    let clientId := "/" ++ client.name
    let realUri ← substring (units message.uri) (units clientId).length
    return some ⟨client.innerAddress, client.innerPort, message, realUri, 100⟩

end HttpResponseHandler

/-! ## The two ends -/

section Ends

variable {id rest : String}

theorem toList_uri : ("/" ++ id ++ rest).toList = '/' :: (id.toList ++ rest.toList) := by
  rw [String.toList_append, String.toList_append, List.append_assoc]
  rfl

theorem substringBetween_uri (closing : Char) (hid : closing ∉ id.toList) :
    substringBetween ("/" ++ id ++ rest) '/' closing =
      if closing ∈ rest.toList then
        some (String.ofList (id.toList ++ rest.toList.takeWhile (· != closing)))
      else none := by
  have hall : ∀ c ∈ id.toList, (c != closing) = true := by
    intro c hc
    rw [bne_iff_ne]
    rintro rfl
    exact hid hc
  have hmem : closing ∈ id.toList ++ rest.toList ↔ closing ∈ rest.toList := by
    rw [List.mem_append, or_iff_right hid]
  rw [substringBetween, toList_uri, List.dropWhile_cons_of_neg (by decide)]
  simp only [hmem, List.takeWhile_append_of_pos hall]

theorem isBlank_append {id rest : List Char} (hid : isBlank (some (String.ofList id)) = false) :
    isBlank (some (String.ofList (id ++ rest))) = false := by
  simp only [isBlank, String.toList_ofList, List.all_append] at hid ⊢
  rw [hid, Bool.false_and]

/-- A slash behind the id ends the client id before any question mark does. -/
theorem parseClientId_uri (hblank : isBlank (some id) = false) (hslash : '/' ∉ id.toList)
    (hquery : '?' ∉ id.toList) :
    parseClientId ("/" ++ id ++ rest) =
      if '/' ∈ rest.toList then
        some (String.ofList (id.toList ++ rest.toList.takeWhile (· != '/')))
      else if '?' ∈ rest.toList then
        some (String.ofList (id.toList ++ rest.toList.takeWhile (· != '?')))
      else none := by
  rw [parseClientId, substringBetween_uri '/' hslash, substringBetween_uri '?' hquery]
  by_cases hmem : '/' ∈ rest.toList
  · have hid : isBlank (some (String.ofList id.toList)) = false := by
      rwa [String.ofList_toList]
    simp only [if_pos hmem, isBlank_append hid, Bool.false_eq_true, if_false]
  · simp only [if_neg hmem, isBlank_none, if_true]

theorem takeWhile_eq_nil_iff {closing : Char} {l : List Char} (hmem : closing ∈ l) :
    l.takeWhile (· != closing) = [] ↔ l.head? = some closing := by
  cases l with
  | nil => cases hmem
  | cons c l =>
    rw [List.takeWhile_cons, List.head?_cons, Option.some.injEq]
    by_cases hc : c = closing
    · simp [hc]
    · simp [hc]

theorem ofList_append_eq_iff {tail : List Char} :
    some (String.ofList (id.toList ++ tail)) = some id ↔ tail = [] := by
  rw [Option.some.injEq]
  constructor
  · intro h
    have hlist := congrArg String.toList h
    rwa [String.toList_ofList, List.append_right_eq_self] at hlist
  · rintro rfl
    rw [List.append_nil, String.ofList_toList]

theorem parseClientId_eq_iff (hblank : isBlank (some id) = false) (hslash : '/' ∉ id.toList)
    (hquery : '?' ∉ id.toList) :
    parseClientId ("/" ++ id ++ rest) = some id ↔
      rest.toList.head? = some '/' ∨ rest.toList.head? = some '?' ∧ '/' ∉ rest.toList := by
  rw [parseClientId_uri hblank hslash hquery]
  by_cases hmem : '/' ∈ rest.toList
  · rw [if_pos hmem, ofList_append_eq_iff, takeWhile_eq_nil_iff hmem]
    simp [hmem]
  · have hhead : rest.toList.head? ≠ some '/' := fun h => hmem (List.mem_of_head? h)
    rw [if_neg hmem, or_iff_right hhead, and_iff_left hmem]
    by_cases hmark : '?' ∈ rest.toList
    · rw [if_pos hmark, ofList_append_eq_iff, takeWhile_eq_nil_iff hmark]
    · have hhead : rest.toList.head? ≠ some '?' := fun h => hmark (List.mem_of_head? h)
      simp [hmark, hhead]

theorem substring_uri (id rest : String) :
    substring (units ("/" ++ id ++ rest)) (units ("/" ++ id)).length = some (units rest) := by
  have hunits : units ("/" ++ id ++ rest) = units ("/" ++ id) ++ units rest := by
    simp only [units, String.toList_append, List.flatMap_append]
  rw [hunits, substring, if_pos (by simp), List.drop_left]

end Ends

/-- The server does not mark what it forwards. -/
theorem not_registered (codecs : Codecs) (message : ServerRequest) :
    contains (LogicHandler.responseServerRequest codecs message).headers "x-register" = false := by
  simp only [LogicHandler.responseServerRequest, LogicHandler.contentLength]
  split
  · rfl
  · simp only [contains, List.any_cons, List.any_nil, Bool.or_false]
    decide +kernel

/-- The request to `/id` and the rest goes to the client with the id, which forwards the rest. -/
def Routed (client : HttpClient) (rest : String) : Prop :=
  parseClientId ("/" ++ client.name ++ rest) = some client.name ∧
    ∀ (codecs : Codecs) (parseObject : String → Option (List String))
      (byte2Bean : List UInt8 → Option ServerRequest) (message : ServerRequest)
      (bytes : List UInt8), codecs.bean2Byte message = some bytes →
      byte2Bean bytes = some message → message.uri = "/" ++ client.name ++ rest →
      HttpResponseHandler.channelRead0 parseObject byte2Bean client
          (LogicHandler.responseServerRequest codecs message) =
        some (some ⟨client.innerAddress, client.innerPort, message, units rest, 100⟩)

theorem channelRead0_forwards {codecs : Codecs} {parseObject : String → Option (List String)}
    {byte2Bean : List UInt8 → Option ServerRequest} {client : HttpClient} {rest : String}
    {message : ServerRequest} {bytes : List UInt8}
    (hbytes : codecs.bean2Byte message = some bytes) (hbean : byte2Bean bytes = some message)
    (huri : message.uri = "/" ++ client.name ++ rest) :
    HttpResponseHandler.channelRead0 parseObject byte2Bean client
        (LogicHandler.responseServerRequest codecs message) =
      some (some ⟨client.innerAddress, client.innerPort, message, units rest, 100⟩) := by
  have hcontent : (LogicHandler.responseServerRequest codecs message).content = bytes := by
    simp only [LogicHandler.responseServerRequest, hbytes, Option.getD_some]
  have hcut := substring_uri client.name rest
  rw [HttpResponseHandler.channelRead0, not_registered, if_neg Bool.false_ne_true,
    HttpResponseHandler.channelRead0.request, hcontent, hbean]
  simp only [bind, Option.bind, huri, hcut, pure]

/-- With a question mark behind the id, a slash in the query makes the server take more than the
id; with nothing behind the id it finds none. -/
theorem routed_iff (client : HttpClient) (rest : String)
    (hblank : isBlank (some client.name) = false) (hslash : '/' ∉ client.name.toList)
    (hquery : '?' ∉ client.name.toList) :
    Routed client rest ↔
      rest.toList.head? = some '/' ∨ rest.toList.head? = some '?' ∧ '/' ∉ rest.toList := by
  rw [Routed, parseClientId_eq_iff hblank hslash hquery]
  refine ⟨And.left, fun h => ⟨h, ?_⟩⟩
  intro codecs parseObject byte2Bean message bytes hbytes hbean huri
  exact channelRead0_forwards hbytes hbean huri

theorem routed_iff_query :
    Routed ⟨"web", "127.0.0.1", 8080⟩ "?page=1" ↔
      "?page=1".toList.head? = some '/' ∨
        "?page=1".toList.head? = some '?' ∧ '/' ∉ "?page=1".toList :=
  routed_iff ⟨"web", "127.0.0.1", 8080⟩ "?page=1" (by decide +kernel) (by decide +kernel)
    (by decide +kernel)

/-- The address of a page as a parameter. -/
theorem not_routed : ¬ ∀ (client : HttpClient) (rest : String),
    isBlank (some client.name) = false → '/' ∉ client.name.toList → '?' ∉ client.name.toList →
      rest = "" ∨ rest.toList.head? = some '/' ∨ rest.toList.head? = some '?' →
        Routed client rest := by
  intro h
  have hrouted := h ⟨"web", "127.0.0.1", 8080⟩ "?page=a/b" (by decide +kernel) (by decide +kernel)
    (by decide +kernel) (.inr (.inr (by decide +kernel)))
  exact absurd hrouted.1 (by decide +kernel)

end BigPlan.Ngrok
