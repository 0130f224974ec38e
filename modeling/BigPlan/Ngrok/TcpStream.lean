import BigPlan.Ngrok.TcpLogicHandler

/-!
# Bytes through the TCP tunnel

A client talks to a service behind the ngrok-cli. Each of the four connections on the way carries a
stream of bytes, and what is read at once need not be what was written at once. The server and the
ngrok-cli tell their own messages from those of the two ends by the first bytes of what they read,
so whether the streams come through depends on how they are cut.
-/
namespace BigPlan.Ngrok

open Lib.Java Lib.Runs

/-! ## Marked bytes -/

/-- Bytes under way, with a mark on those that one end sent to the other one. -/
abbrev Marked := List (UInt8 × Bool)

def marked (mark : Bool) (bytes : Bytes) : Marked := bytes.map fun byte => (byte, mark)

def bytesOf (stream : Marked) : Bytes := stream.map Prod.fst

/-- The bytes that the one end sent. -/
def dataOf (stream : Marked) : Bytes := bytesOf (stream.filter Prod.snd)

@[simp] theorem dataOf_append (stream stream' : Marked) :
    dataOf (stream ++ stream') = dataOf stream ++ dataOf stream' := by
  simp [dataOf, bytesOf]

@[simp] theorem dataOf_marked (mark : Bool) (msg : Bytes) :
    dataOf (marked mark msg) = if mark then msg else [] := by
  cases mark with
  | true =>
    have hall : (marked true msg).filter Prod.snd = marked true msg := by
      rw [List.filter_eq_self]
      intro byte hbyte
      obtain ⟨b, -, rfl⟩ := List.mem_map.mp hbyte
      rfl
    rw [dataOf, hall, bytesOf, marked, List.map_map, if_pos rfl]
    exact List.map_id msg
  | false =>
    have hnone : (marked false msg).filter Prod.snd = [] := by
      rw [List.filter_eq_nil_iff]
      intro byte hbyte
      obtain ⟨b, -, rfl⟩ := List.mem_map.mp hbyte
      exact Bool.false_ne_true
    rw [dataOf, hnone]
    rfl

theorem dataOf_take_drop (n : ℕ) (stream : Marked) :
    dataOf (stream.take n) ++ dataOf (stream.drop n) = dataOf stream := by
  rw [← dataOf_append, List.take_append_drop]

/-! ## The handlers -/

/-- What is readable becomes one message. -/
def TcpMessageDecoder.decode (readable : Bytes) : List Bytes :=
  if 0 < readable.length then [readable] else []

/-- What is sent on to the inner service. The loop returns at the last byte of the text. -/
def TcpServerMessageHandler.channelRead0 (msg : Bytes) : Bytes :=
  if judge msg REGISTER_OK.length REGISTER_OK then [] else msg

/-- What is sent on to the server. -/
def TcpResponseHandler.channelRead0 (msg : Bytes) : Bytes := FROM_INNER ++ msg

/-- The server, the connections that exceptions have closed, and in both directions what the one end
has sent, what is under way, and what the other end has got. -/
structure Streams where
  server : TcpServer Unit
  closed : List (Connection Unit)
  clientSent : Bytes
  toServer : Bytes
  toCli : Marked
  innerGot : Bytes
  innerSent : Bytes
  fromInner : Bytes
  fromCli : Marked
  clientGot : Bytes

/-- One of the ends sends bytes, or so many bytes are read at once. -/
inductive Event where
  | clientSends (bytes : Bytes)
  | serverReadsClient (n : ℕ)
  | cliReadsServer (n : ℕ)
  | innerSends (bytes : Bytes)
  | cliReadsInner (n : ℕ)
  | serverReadsCli (n : ℕ)
  deriving DecidableEq

namespace Streams

/-- The connection of the ngrok-cli has just become active. -/
def start : Streams where
  server := ⟨none, none⟩
  closed := []
  clientSent := []
  toServer := []
  toCli := []
  innerGot := []
  innerSent := []
  fromInner := []
  fromCli := marked false REGISTER
  clientGot := []

/-- The server writes to a connection. -/
def write (s : Streams) (mark : Bool) (connection : Connection Unit) (bytes : Bytes) : Streams :=
  if connection ∈ s.closed then s
  else
    match connection with
    | .ngrokCli => { s with toCli := s.toCli ++ marked mark bytes }
    | .client _ => { s with clientGot := s.clientGot ++ bytes }

/-- The server reads a message. What it forwards for the client is marked. -/
def serverReads (s : Streams) (ctx : Connection Unit) (msg : Bytes) : Streams :=
  let out := s.server.channelRead0 ctx msg
  let mark := out.taken = .fromClient ∧ ctx ≠ .ngrokCli
  let s := out.writes.foldl (fun s write => s.write mark write.1 write.2)
    { s with server := out.server }
  if out.thrown then { s with closed := ctx :: s.closed } else s

def step (s : Streams) : Event → Streams
  | .clientSends bytes =>
    { s with clientSent := s.clientSent ++ bytes, toServer := s.toServer ++ bytes }
  | .serverReadsClient n =>
    if .client () ∈ s.closed then s
    else
      (TcpMessageDecoder.decode (s.toServer.take n)).foldl (serverReads · (.client ()))
        { s with toServer := s.toServer.drop n }
  | .cliReadsServer n =>
    (TcpMessageDecoder.decode (bytesOf (s.toCli.take n))).foldl
      (fun s msg => { s with innerGot := s.innerGot ++ TcpServerMessageHandler.channelRead0 msg })
      { s with toCli := s.toCli.drop n }
  | .innerSends bytes =>
    { s with innerSent := s.innerSent ++ bytes, fromInner := s.fromInner ++ bytes }
  | .cliReadsInner n =>
    (TcpMessageDecoder.decode (s.fromInner.take n)).foldl
      (fun s msg => { s with fromCli := s.fromCli ++ marked false FROM_INNER ++ marked true msg })
      { s with fromInner := s.fromInner.drop n }
  | .serverReadsCli n =>
    if .ngrokCli ∈ s.closed then s
    else
      (TcpMessageDecoder.decode (bytesOf (s.fromCli.take n))).foldl (serverReads · .ngrokCli)
        { s with fromCli := s.fromCli.drop n }

/-- Every byte that one end has sent is under way or has come to the other one, in order, and
nothing else has. -/
def Conserved (s : Streams) : Prop :=
  s.innerGot ++ (dataOf s.toCli ++ s.toServer) = s.clientSent ∧
    s.clientGot ++ (dataOf s.fromCli ++ s.fromInner) = s.innerSent

/-- The server reads from the client what it forwards to the ngrok-cli; the ngrok-cli reads the text
that tells it that it is registered, and nothing else, or only bytes of the client that do not begin
with that text; and what the server reads from the ngrok-cli holds bytes of the inner service only
if it is one text that tells where they are from with nothing but such bytes behind it (not two of
these messages that have run together), when it has the connection of the client. From a connection
that the server has closed nothing is read, and what it holds stays under way. -/
def Framed (s : Streams) : Event → Prop
  | .serverReadsClient n =>
    s.toServer.take n ≠ [] → .client () ∉ s.closed →
      (s.server.ngrokCliConnection = some .ngrokCli ∧ .ngrokCli ∉ s.closed) ∧
        ¬ REGISTER <+: s.toServer.take n ∧ ¬ FROM_INNER <+: s.toServer.take n
  | .cliReadsServer n =>
    dataOf (s.toCli.take n) =
      if REGISTER_OK <+: bytesOf (s.toCli.take n) then [] else bytesOf (s.toCli.take n)
  | .serverReadsCli n =>
    .ngrokCli ∉ s.closed → dataOf (s.fromCli.take n) =
      if FROM_INNER <+: bytesOf (s.fromCli.take n) ∧
          (s.server.clientConnection = some (.client ()) ∧ .client () ∉ s.closed) then
        (bytesOf (s.fromCli.take n)).drop FROM_INNER.length
      else []
  | _ => True

variable {s : Streams} {ctx connection : Connection Unit} {msg : Bytes}

/-! ### What is written -/

theorem decode_nil : TcpMessageDecoder.decode [] = [] := rfl

theorem decode_of_ne_nil (h : msg ≠ []) : TcpMessageDecoder.decode msg = [msg] :=
  if_pos (List.length_pos_iff.mpr h)

/-- Only the ngrok-cli gets bytes that are marked. -/
theorem dataOf_write (mark : Bool) (connection : Connection Unit) (bytes : Bytes) :
    dataOf (s.write mark connection bytes).toCli =
      dataOf s.toCli ++ if mark = true ∧ connection = .ngrokCli ∧ .ngrokCli ∉ s.closed then bytes
        else [] := by
  unfold write
  by_cases hclosed : connection ∈ s.closed
  · rw [if_pos hclosed, if_neg, List.append_nil]
    rintro ⟨-, rfl, hopen⟩
    exact hopen hclosed
  · rw [if_neg hclosed]
    cases connection with
    | ngrokCli => simp [hclosed]
    | client c => simp

theorem clientGot_write (mark : Bool) (connection : Connection Unit) (bytes : Bytes) :
    (s.write mark connection bytes).clientGot =
      s.clientGot ++ if connection = .client () ∧ .client () ∉ s.closed then bytes else [] := by
  unfold write
  by_cases hclosed : connection ∈ s.closed
  · rw [if_pos hclosed, if_neg, List.append_nil]
    rintro ⟨rfl, hopen⟩
    exact hopen hclosed
  · rw [if_neg hclosed]
    cases connection with
    | ngrokCli => simp
    | client c => simp [hclosed]

/-- What the server does not deal with. -/
structure SameEnds (s s' : Streams) : Prop where
  clientSent : s'.clientSent = s.clientSent
  toServer : s'.toServer = s.toServer
  innerGot : s'.innerGot = s.innerGot
  innerSent : s'.innerSent = s.innerSent
  fromInner : s'.fromInner = s.fromInner
  fromCli : s'.fromCli = s.fromCli

theorem sameEnds_write (mark : Bool) (connection : Connection Unit) (bytes : Bytes) :
    s.SameEnds (s.write mark connection bytes) := by
  unfold write
  split
  · exact ⟨rfl, rfl, rfl, rfl, rfl, rfl⟩
  · cases connection <;> exact ⟨rfl, rfl, rfl, rfl, rfl, rfl⟩

/-- A connection, if there is one, is written to. -/
def writeTo (s : Streams) (mark : Bool) (connection : Option (Connection Unit)) (bytes : Bytes) :
    Streams :=
  connection.elim s fun connection => s.write mark connection bytes

theorem foldl_writes (mark : Bool) (connection : Option (Connection Unit)) (bytes : Bytes) :
    (connection.toList.map fun connection => (connection, bytes)).foldl
      (fun s write => s.write mark write.1 write.2) s = s.writeTo mark connection bytes := by
  cases connection <;> rfl

theorem serverReads_register (h : REGISTER <+: msg) : s.serverReads ctx msg =
    { s with server := { s.server with ngrokCliConnection := some ctx } }.write false ctx
      REGISTER_OK := by
  simp [serverReads, TcpServer.channelRead0_register h]

theorem serverReads_fromInner (h : FROM_INNER <+: msg) : s.serverReads ctx msg =
    s.writeTo false s.server.clientConnection (msg.drop FROM_INNER.length) := by
  rw [← foldl_writes]
  simp [serverReads, TcpServer.channelRead0_fromInner h]

theorem serverReads_fromClient (hregister : ¬ REGISTER <+: msg) (hinner : ¬ FROM_INNER <+: msg) :
    s.serverReads ctx msg =
      if s.server.ngrokCliConnection.isNone then
        { s with
          server := { s.server with clientConnection := some ctx }
          closed := ctx :: s.closed }
      else
        { s with server := { s.server with clientConnection := some ctx } }.writeTo
          (decide (ctx ≠ Connection.ngrokCli)) s.server.ngrokCliConnection msg := by
  simp only [serverReads, TcpServer.channelRead0_fromClient hregister hinner, foldl_writes]
  cases s.server.ngrokCliConnection with
  | none => rfl
  | some connection => simp

@[simp] theorem server_write (mark : Bool) (connection : Connection Unit) (bytes : Bytes) :
    (s.write mark connection bytes).server = s.server := by
  unfold write
  split
  · rfl
  · cases connection <;> rfl

@[simp] theorem server_writeTo (mark : Bool) (connection : Option (Connection Unit))
    (bytes : Bytes) : (s.writeTo mark connection bytes).server = s.server := by
  cases connection with
  | none => rfl
  | some connection => exact server_write mark connection bytes

theorem sameEnds_writeTo (mark : Bool) (connection : Option (Connection Unit)) (bytes : Bytes) :
    s.SameEnds (s.writeTo mark connection bytes) := by
  cases connection with
  | none => exact ⟨rfl, rfl, rfl, rfl, rfl, rfl⟩
  | some connection => exact sameEnds_write mark connection bytes

theorem SameEnds.of_server {s' : Streams} {server : TcpServer Unit}
    (h : { s with server := server }.SameEnds s') : s.SameEnds s' :=
  ⟨h.clientSent, h.toServer, h.innerGot, h.innerSent, h.fromInner, h.fromCli⟩

theorem sameEnds_serverReads (s : Streams) (ctx : Connection Unit) (msg : Bytes) :
    s.SameEnds (s.serverReads ctx msg) := by
  by_cases hregister : REGISTER <+: msg
  · rw [serverReads_register hregister]
    exact .of_server (sameEnds_write _ _ _)
  by_cases hinner : FROM_INNER <+: msg
  · rw [serverReads_fromInner hinner]
    exact sameEnds_writeTo _ _ _
  · rw [serverReads_fromClient hregister hinner]
    split
    · exact ⟨rfl, rfl, rfl, rfl, rfl, rfl⟩
    · exact .of_server (sameEnds_writeTo _ _ _)

/-- The client's bytes go on to the ngrok-cli if they are forwarded to it, and nothing else does. -/
theorem dataOf_serverReads (s : Streams) (ctx : Connection Unit) (msg : Bytes) :
    dataOf (s.serverReads ctx msg).toCli = dataOf s.toCli ++
      if ctx ≠ .ngrokCli ∧ (¬ REGISTER <+: msg ∧ ¬ FROM_INNER <+: msg) ∧
        s.server.ngrokCliConnection = some .ngrokCli ∧ .ngrokCli ∉ s.closed then msg else [] := by
  by_cases hregister : REGISTER <+: msg
  · rw [serverReads_register hregister, dataOf_write]
    simp [hregister]
  by_cases hinner : FROM_INNER <+: msg
  · rw [serverReads_fromInner hinner]
    cases hclient : s.server.clientConnection with
    | none => simp [writeTo, hinner]
    | some connection =>
      show dataOf (s.write false connection _).toCli = _
      rw [dataOf_write]
      simp [hinner]
  · rw [serverReads_fromClient hregister hinner]
    cases hcli : s.server.ngrokCliConnection with
    | none => simp
    | some connection =>
      show dataOf (write _ _ connection _).toCli = _
      rw [dataOf_write]
      simp [hregister, hinner]

/-- The inner service's bytes go to the client if it is the one who is answered. -/
theorem clientGot_serverReads (h : s.server.ngrokCliConnection ≠ some (.client ())) (msg : Bytes) :
    (s.serverReads .ngrokCli msg).clientGot = s.clientGot ++
      if FROM_INNER <+: msg ∧ s.server.clientConnection = some (.client ()) ∧
        .client () ∉ s.closed then msg.drop FROM_INNER.length else [] := by
  by_cases hregister : REGISTER <+: msg
  · rw [serverReads_register hregister, clientGot_write]
    simp [not_fromInner_of_register hregister]
  by_cases hinner : FROM_INNER <+: msg
  · rw [serverReads_fromInner hinner]
    cases hclient : s.server.clientConnection with
    | none => simp [writeTo]
    | some connection =>
      show (s.write false connection _).clientGot = _
      rw [clientGot_write]
      simp [hinner]
  · rw [serverReads_fromClient hregister hinner]
    cases hcli : s.server.ngrokCliConnection with
    | none => simp [hinner]
    | some connection =>
      have hne : connection ≠ .client () := fun heq => h (heq ▸ hcli)
      show (write _ _ connection _).clientGot = _
      rw [clientGot_write]
      simp [hinner, hne]

/-- What is forwarded to the ngrok-cli is not written to the client. -/
theorem clientGot_serverReads_client (hregister : ¬ REGISTER <+: msg)
    (hinner : ¬ FROM_INNER <+: msg) (hcli : s.server.ngrokCliConnection = some .ngrokCli) :
    (s.serverReads (.client ()) msg).clientGot = s.clientGot := by
  rw [serverReads_fromClient hregister hinner, hcli]
  show (write _ _ Connection.ngrokCli _).clientGot = _
  rw [clientGot_write]
  simp

/-- Only a registration sets the connection of the ngrok-cli. -/
theorem ngrokCliConnection_serverReads (s : Streams) (ctx : Connection Unit) (msg : Bytes) :
    (s.serverReads ctx msg).server.ngrokCliConnection =
      if REGISTER <+: msg then some ctx else s.server.ngrokCliConnection := by
  by_cases hregister : REGISTER <+: msg
  · rw [serverReads_register hregister, server_write, if_pos hregister]
  rw [if_neg hregister]
  by_cases hinner : FROM_INNER <+: msg
  · rw [serverReads_fromInner hinner, server_writeTo]
  · rw [serverReads_fromClient hregister hinner]
    split
    · rfl
    · rw [server_writeTo]

/-! ### Whole runs -/

/-- No client is in the slot of the ngrok-cli. -/
def Safe (s : Streams) : Prop := s.Conserved ∧ s.server.ngrokCliConnection ≠ some (.client ())

theorem safe_start : start.Safe := by
  refine ⟨⟨rfl, ?_⟩, fun h => by cases h⟩
  show [] ++ (dataOf (marked false REGISTER) ++ []) = []
  rw [dataOf_marked]
  rfl

theorem bytesOf_eq_nil {stream : Marked} : bytesOf stream = [] ↔ stream = [] := List.map_eq_nil_iff

theorem drop_of_take_nil {α : Type} {n : ℕ} {l : List α} (h : l.take n = []) : l.drop n = l := by
  have hwhole := List.take_append_drop n l
  rwa [h, List.nil_append] at hwhole

theorem safe_serverReadsClient (n : ℕ) (h : s.Safe) :
    (s.Framed (.serverReadsClient n) → (s.step (.serverReadsClient n)).Safe) ∧
      (¬ s.Framed (.serverReadsClient n) → ¬ (s.step (.serverReadsClient n)).Conserved) := by
  obtain ⟨⟨hup, hdown⟩, hslot⟩ := h
  by_cases hclosed : .client () ∈ s.closed
  · have hstep : s.step (.serverReadsClient n) = s := if_pos hclosed
    rw [hstep]
    exact ⟨fun _ => ⟨⟨hup, hdown⟩, hslot⟩, fun hnot =>
      absurd (fun _ hopen => absurd hclosed hopen) hnot⟩
  by_cases hnil : s.toServer.take n = []
  · have hstep : s.step (.serverReadsClient n) = s := by
      rw [step, if_neg hclosed, hnil, decode_nil, drop_of_take_nil hnil]
      rfl
    rw [hstep]
    exact ⟨fun _ => ⟨⟨hup, hdown⟩, hslot⟩, fun hnot => absurd (fun hne => absurd hnil hne) hnot⟩
  have hstep : s.step (.serverReadsClient n) =
      serverReads { s with toServer := s.toServer.drop n } (.client ()) (s.toServer.take n) := by
    rw [step, if_neg hclosed, decode_of_ne_nil hnil]
    rfl
  have hends := sameEnds_serverReads { s with toServer := s.toServer.drop n } (.client ())
    (s.toServer.take n)
  have hdata := dataOf_serverReads { s with toServer := s.toServer.drop n } (.client ())
    (s.toServer.take n)
  rw [hstep]
  constructor
  · intro hframed
    obtain ⟨hcli, hregister, hinner⟩ := hframed hnil hclosed
    refine ⟨⟨?_, ?_⟩, ?_⟩
    · have hclient : Connection.client () ≠ .ngrokCli := by
        intro h
        cases h
      rw [hends.innerGot, hends.toServer, hends.clientSent, hdata,
        if_pos ⟨hclient, ⟨hregister, hinner⟩, hcli⟩, List.append_assoc, List.take_append_drop]
      exact hup
    · have hgot := clientGot_serverReads_client (s := { s with toServer := s.toServer.drop n })
        hregister hinner hcli.1
      rw [hends.fromCli, hends.fromInner, hends.innerSent, hgot]
      exact hdown
    · rw [ngrokCliConnection_serverReads, if_neg hregister]
      exact hslot
  · rintro hframed ⟨hup', -⟩
    have hlost : dataOf (serverReads { s with toServer := s.toServer.drop n } (.client ())
        (s.toServer.take n)).toCli = dataOf s.toCli := by
      rw [hdata, if_neg, List.append_nil]
      rintro ⟨-, hclear, hcli⟩
      exact hframed fun _ _ => ⟨hcli, hclear⟩
    rw [hends.innerGot, hends.toServer, hends.clientSent, hlost] at hup'
    have heq := List.append_cancel_left (List.append_cancel_left (hup'.trans hup.symm))
    have hlength := congrArg List.length heq
    have hpos := List.length_pos_iff.mpr hnil
    simp only [List.length_drop, List.length_take] at hlength hpos
    omega

theorem safe_serverReadsCli (n : ℕ) (h : s.Safe) :
    (s.Framed (.serverReadsCli n) → (s.step (.serverReadsCli n)).Safe) ∧
      (¬ s.Framed (.serverReadsCli n) → ¬ (s.step (.serverReadsCli n)).Conserved) := by
  obtain ⟨⟨hup, hdown⟩, hslot⟩ := h
  by_cases hclosed : .ngrokCli ∈ s.closed
  · have hstep : s.step (.serverReadsCli n) = s := if_pos hclosed
    rw [hstep]
    exact ⟨fun _ => ⟨⟨hup, hdown⟩, hslot⟩, fun hnot =>
      absurd (fun hopen => absurd hclosed hopen) hnot⟩
  by_cases hnil : bytesOf (s.fromCli.take n) = []
  · have hstep : s.step (.serverReadsCli n) = s := by
      rw [step, if_neg hclosed, hnil, decode_nil, drop_of_take_nil (bytesOf_eq_nil.mp hnil)]
      rfl
    have hframed : s.Framed (.serverReadsCli n) := by
      intro _
      rw [hnil, bytesOf_eq_nil.mp hnil, List.drop_nil, ite_self]
      rfl
    rw [hstep]
    exact ⟨fun _ => ⟨⟨hup, hdown⟩, hslot⟩, fun hnot => absurd hframed hnot⟩
  have hstep : s.step (.serverReadsCli n) =
      serverReads { s with fromCli := s.fromCli.drop n } .ngrokCli
        (bytesOf (s.fromCli.take n)) := by
    rw [step, if_neg hclosed, decode_of_ne_nil hnil]
    rfl
  have hends := sameEnds_serverReads { s with fromCli := s.fromCli.drop n } .ngrokCli
    (bytesOf (s.fromCli.take n))
  have hgot := clientGot_serverReads (s := { s with fromCli := s.fromCli.drop n }) hslot
    (bytesOf (s.fromCli.take n))
  have hup' : (serverReads { s with fromCli := s.fromCli.drop n } .ngrokCli
      (bytesOf (s.fromCli.take n))).innerGot ++ (dataOf (serverReads { s with
        fromCli := s.fromCli.drop n } .ngrokCli (bytesOf (s.fromCli.take n))).toCli ++
        s.toServer) = s.clientSent := by
    rw [hends.innerGot, dataOf_serverReads, if_neg fun h => h.1 rfl, List.append_nil]
    exact hup
  rw [hstep]
  rw [← dataOf_take_drop n s.fromCli, List.append_assoc] at hdown
  constructor
  · intro hframed
    refine ⟨⟨?_, ?_⟩, ?_⟩
    · rw [hends.toServer, hends.clientSent]
      exact hup'
    · rw [hends.fromCli, hends.fromInner, hends.innerSent, hgot, ← hframed hclosed,
        List.append_assoc]
      exact hdown
    · rw [ngrokCliConnection_serverReads]
      split
      · intro h
        cases h
      · exact hslot
  · rintro hframed ⟨-, hdown'⟩
    apply hframed
    intro _
    rw [hends.fromCli, hends.fromInner, hends.innerSent, hgot, List.append_assoc, ← hdown] at hdown'
    exact (List.append_cancel_right (List.append_cancel_left hdown')).symm

theorem safe_cliReadsServer (n : ℕ) (h : s.Safe) :
    (s.Framed (.cliReadsServer n) → (s.step (.cliReadsServer n)).Safe) ∧
      (¬ s.Framed (.cliReadsServer n) → ¬ (s.step (.cliReadsServer n)).Conserved) := by
  obtain ⟨⟨hup, hdown⟩, hslot⟩ := h
  have hstep : s.step (.cliReadsServer n) =
      { s with
        toCli := s.toCli.drop n
        innerGot := s.innerGot ++ if REGISTER_OK <+: bytesOf (s.toCli.take n) then []
          else bytesOf (s.toCli.take n) } := by
    by_cases hnil : bytesOf (s.toCli.take n) = []
    · rw [step, hnil, decode_nil, ite_self, List.append_nil]
      rfl
    · rw [step, decode_of_ne_nil hnil, List.foldl_cons, List.foldl_nil,
        TcpServerMessageHandler.channelRead0]
      simp only [judge_iff]
  rw [← dataOf_take_drop n s.toCli, List.append_assoc] at hup
  rw [hstep]
  constructor
  · intro hframed
    refine ⟨⟨?_, hdown⟩, hslot⟩
    rw [← hframed, List.append_assoc]
    exact hup
  · rintro hframed ⟨hup', -⟩
    apply hframed
    rw [List.append_assoc, ← hup] at hup'
    exact (List.append_cancel_right (List.append_cancel_left hup')).symm

theorem safe_cliReadsInner (n : ℕ) (h : s.Safe) : (s.step (.cliReadsInner n)).Safe := by
  obtain ⟨⟨hup, hdown⟩, hslot⟩ := h
  by_cases hnil : s.fromInner.take n = []
  · have hstep : s.step (.cliReadsInner n) = s := by
      rw [step, hnil, decode_nil, drop_of_take_nil hnil]
      rfl
    rw [hstep]
    exact ⟨⟨hup, hdown⟩, hslot⟩
  · have hstep : s.step (.cliReadsInner n) =
        { s with
          fromCli := s.fromCli ++ marked false FROM_INNER ++ marked true (s.fromInner.take n)
          fromInner := s.fromInner.drop n } := by
      rw [step, decode_of_ne_nil hnil]
      rfl
    rw [hstep]
    refine ⟨⟨hup, ?_⟩, hslot⟩
    simp only [dataOf_append, dataOf_marked, Bool.false_eq_true, if_false, if_true,
      List.append_assoc, List.take_append_drop]
    exact hdown

theorem safe_step (event : Event) (h : s.Safe) :
    (s.Framed event → (s.step event).Safe) ∧ (¬ s.Framed event → ¬ (s.step event).Conserved) := by
  cases event with
  | serverReadsClient n => exact safe_serverReadsClient n h
  | serverReadsCli n => exact safe_serverReadsCli n h
  | cliReadsServer n => exact safe_cliReadsServer n h
  | cliReadsInner n => exact ⟨fun _ => safe_cliReadsInner n h, fun hnot => absurd trivial hnot⟩
  | clientSends bytes =>
    refine ⟨fun _ => ⟨⟨?_, h.1.2⟩, h.2⟩, fun hnot => absurd trivial hnot⟩
    show s.innerGot ++ (dataOf s.toCli ++ (s.toServer ++ bytes)) = s.clientSent ++ bytes
    rw [← h.1.1]
    simp only [List.append_assoc]
  | innerSends bytes =>
    refine ⟨fun _ => ⟨⟨h.1.1, ?_⟩, h.2⟩, fun hnot => absurd trivial hnot⟩
    show s.clientGot ++ (dataOf s.fromCli ++ (s.fromInner ++ bytes)) = s.innerSent ++ bytes
    rw [← h.1.2]
    simp only [List.append_assoc]

/-- The streams of both ends come through unharmed in every state of a run exactly if they are cut
in the right places throughout it. -/
theorem conserved_iff (events : List Event) :
    Throughout step Conserved start events ↔ Along step Framed start events :=
  throughout_iff_along (fun _ s => s.Safe) (fun _ _ h => h.1)
    (fun _ event _ h => (safe_step event h).1) (fun _ event _ h => (safe_step event h).2) safe_start

end Streams

end BigPlan.Ngrok
