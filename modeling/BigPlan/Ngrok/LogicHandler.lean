import Mathlib.Logic.Function.Basic
import BigPlan.Auth.AccessCard

/-!
# The handlers of the HTTP tunnel

`RequestToMessengerHandler` makes a message of each request to the server, told apart by two
headers. `LogicHandler` keeps the connections of the ngrok clients by their ids, and those of
the requests that it forwarded by the ids of the messages. The codecs are parameters.
-/
namespace BigPlan.Ngrok

open Auth (Headers sameName)
open Lib.Java

structure ClientInfo where
  id : Option String
  deriving DecidableEq, Repr

structure ServerRequest where
  id : String
  uri : String
  method : String
  protocolVersion : String
  headers : Headers
  trailingHeaders : Headers
  content : List UInt8
  deriving DecidableEq, Repr

/-- As a client may have encoded it: `none` stands for `null`. -/
structure ClientResponse where
  messageId : Option String
  code : JInt
  reasonPhrase : Option String
  protocolVersion : Option String
  headers : Option (List (Option String × Option String))
  trailingHeaders : Option (List (Option String × Option String))
  content : Option (List UInt8)
  deriving DecidableEq, Repr

structure FullHttpRequest where
  method : String
  protocolVersion : String
  uri : String
  headers : Headers
  trailingHeaders : Headers
  content : List UInt8
  deriving DecidableEq, Repr

structure HttpResponse where
  version : String
  code : JInt
  reasonPhrase : String
  headers : Headers
  content : List UInt8
  deriving DecidableEq, Repr

/-- The codecs of the messages, and what makes a line or a header of a response. Where an
exception is thrown, there is `none`. -/
structure Codecs where
  parseObject : String → Option ClientInfo
  toJSONString : String → String
  byte2Bean : List UInt8 → Option ClientResponse
  bean2Byte : ServerRequest → Option (List UInt8)
  httpVersion : Option String → Option String
  httpResponseStatus : JInt → Option String → Option (JInt × String)
  header : Option String × Option String → Option (String × String)

inductive Message where
  | clientResponse (resp : ClientResponse)
  | clientInfo (clientInfo : ClientInfo)
  | serverRequest (message : ServerRequest)
  deriving DecidableEq, Repr

def contains (headers : Headers) (name : String) : Bool := headers.any fun h => sameName h.1 name

/-- `RequestToMessengerHandler.decode`. -/
def decode (codecs : Codecs) (randomUUID : String) (request : FullHttpRequest) : Option Message :=
  if contains request.headers "x-register" then
    (codecs.parseObject (newString request.content)).map .clientInfo
  else if contains request.headers "x-ngrok" then
    (codecs.byte2Bean request.content).map .clientResponse
  else
    some (.serverRequest {
      id := randomUUID
      uri := request.uri
      method := request.method
      protocolVersion := request.protocolVersion
      headers := request.headers
      trailingHeaders := request.trailingHeaders
      content := request.content })

/-- `StringUtils.substringBetween` of two characters. -/
def substringBetween (str : String) (opening closing : Char) : Option String :=
  match str.toList.dropWhile (· != opening) with
  | [] => none
  | _ :: rest =>
    if closing ∈ rest then some (String.ofList (rest.takeWhile (· != closing))) else none

def parseClientId (uri : String) : Option String :=
  let between := substringBetween uri '/' '/'
  if isBlank between then substringBetween uri '/' '?' else between

namespace LogicHandler

def contentLength (bytes : List UInt8) : Headers :=
  if bytes = [] then [] else [("content-length", toString bytes.length)]

def responseText (body : String) (returnClient : Bool) : HttpResponse :=
  let bytes := getBytes (some body)
  { version := "HTTP/1.1", code := 200, reasonPhrase := "OK"
    headers := contentLength bytes ++ [("content-type", "application/json;charset=utf-8")] ++
      if returnClient then [("x-register", "1")] else []
    content := bytes }

def responseServerRequest (codecs : Codecs) (serverRequest : ServerRequest) : HttpResponse :=
  let bytes := (codecs.bean2Byte serverRequest).getD []
  { version := "HTTP/1.1", code := 200, reasonPhrase := "OK"
    headers := contentLength bytes
    content := bytes }

def responseClientResponse (codecs : Codecs) (clientResponse : ClientResponse) :
    Option HttpResponse := do
  let version ← codecs.httpVersion clientResponse.protocolVersion
  let (code, reasonPhrase) ←
    codecs.httpResponseStatus clientResponse.code clientResponse.reasonPhrase
  let headers ← clientResponse.headers
  let headers ← headers.mapM codecs.header
  return { version, code, reasonPhrase, headers, content := clientResponse.content.getD [] }

end LogicHandler

section Handler

variable (Ctx : Type)

/-- The maps that all connections share. -/
structure LogicHandler where
  CONNECTION_MAP : String → Option Ctx
  MESSAGE_ID_CONNECTION_MAP : String → Option Ctx

/-- What the handler writes for a message, to which connection. -/
inductive Written where
  | nothing
  | registered (ctx : Ctx) (response : HttpResponse)
  | forwarded (messageId : String) (clientConnection : Ctx) (response : HttpResponse)
  | notFound (messageId : String) (ctx : Ctx) (response : HttpResponse)
  | answered (messageId : String) (connection : Ctx) (response : HttpResponse)

end Handler

namespace LogicHandler

variable {Ctx : Type}

/-- An exception is `none`, and before one nothing is put into a map. -/
def channelRead0 (codecs : Codecs) (randomUUID : String) (ctx : Ctx) (request : Message)
    (s : LogicHandler Ctx) : Option (LogicHandler Ctx × Written Ctx) :=
  match request with
  | .clientResponse resp => do
    let messageId ← resp.messageId
    match s.MESSAGE_ID_CONNECTION_MAP messageId with
    | some connection =>
      let response ← responseClientResponse codecs resp
      return (s, .answered messageId connection response)
    | none => return (s, .nothing)
  | .clientInfo clientInfo => do
    let id ← clientInfo.id
    return ({ s with CONNECTION_MAP := Function.update s.CONNECTION_MAP id (some ctx) },
      .registered ctx (responseText (codecs.toJSONString randomUUID) true))
  | .serverRequest message =>
    let clientId := parseClientId message.uri
    match (clientId.filter (· != "")).bind s.CONNECTION_MAP with
    | some clientConnection =>
      some ({ s with
          MESSAGE_ID_CONNECTION_MAP :=
            Function.update s.MESSAGE_ID_CONNECTION_MAP message.id (some ctx) },
        .forwarded message.id clientConnection (responseServerRequest codecs message))
    | none =>
      some (s, .notFound message.id ctx
        (responseText ("channel " ++ stringOf clientId ++ " not found") false))

end LogicHandler

end BigPlan.Ngrok
