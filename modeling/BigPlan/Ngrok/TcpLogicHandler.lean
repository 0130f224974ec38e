import BigPlan.Lib.Java
import BigPlan.Lib.Runs

/-!
# The TCP tunnel

A `TcpServer` has one slot for the connection that a client sent on last and one for that of
the ngrok-cli. A message is judged by its first bytes, on whichever connection it comes.
-/
namespace BigPlan.Ngrok

open Lib.Java Lib.Runs

abbrev Bytes := List UInt8

def REGISTER : Bytes := getBytes (some "ngrok-cli-register")
def FROM_INNER : Bytes := getBytes (some "message-from-inner")
def REGISTER_OK : Bytes := getBytes (some "ngrok-cli-register-ok")

section Server

variable (C : Type)

/-- The connections to a server: that of the ngrok-cli and those of external clients. -/
inductive Connection where
  | ngrokCli
  | client (c : C)
  deriving DecidableEq

structure TcpServer where
  clientConnection : Option (Connection C)
  ngrokCliConnection : Option (Connection C)

/-- What the handler takes a message for. -/
inductive Taken where
  | registration
  | fromInner
  | fromClient
  deriving DecidableEq

structure Outcome where
  server : TcpServer C
  taken : Taken
  writes : List (Connection C × Bytes)
  /-- The exception closes the connection of the message. -/
  thrown : Bool

end Server

def judge (msg : Bytes) (registerLength : Nat) (register : Bytes) : Bool :=
  registerLength ≤ msg.length && (List.range registerLength).all fun i => msg[i]? == register[i]?

theorem judge_iff {msg register : Bytes} :
    judge msg register.length register = true ↔ register <+: msg := by
  simp only [judge, Bool.and_eq_true, decide_eq_true_eq, List.all_eq_true, List.mem_range,
    beq_iff_eq]
  rw [List.prefix_iff_getElem?]
  constructor
  · intro h i hi
    rw [h.2 i hi, List.getElem?_eq_getElem hi]
  · intro h
    refine ⟨?_, fun i hi => (h i hi).trans (List.getElem?_eq_getElem hi).symm⟩
    exact (List.prefix_iff_getElem?.mpr h).length_le

/-- No message is both. -/
theorem not_fromInner_of_register {msg : Bytes} (h : REGISTER <+: msg) : ¬ FROM_INNER <+: msg := by
  intro h'
  have heq := List.prefix_of_prefix_length_le h h' (by decide +kernel)
  exact absurd heq (by decide +kernel)

namespace TcpServer

variable {C : Type}

def channelRead0 (ctx : Connection C) (msg : Bytes) (server : TcpServer C) : Outcome C :=
  if judge msg REGISTER.length REGISTER then
    { server := { server with ngrokCliConnection := some ctx }
      taken := .registration
      writes := [(ctx, REGISTER_OK)]
      thrown := false }
  else if judge msg FROM_INNER.length FROM_INNER then
    let data := msg.drop FROM_INNER.length
    { server
      taken := .fromInner
      writes := server.clientConnection.toList.map fun connection => (connection, data)
      thrown := false }
  else
    { server := { server with clientConnection := some ctx }
      taken := .fromClient
      writes := server.ngrokCliConnection.toList.map fun connection => (connection, msg)
      thrown := server.ngrokCliConnection.isNone }

variable {ctx : Connection C} {msg : Bytes} {server : TcpServer C}

theorem channelRead0_register (h : REGISTER <+: msg) :
    server.channelRead0 ctx msg =
      ⟨{ server with ngrokCliConnection := some ctx }, .registration, [(ctx, REGISTER_OK)],
        false⟩ := by
  rw [channelRead0, if_pos (judge_iff.mpr h)]

theorem channelRead0_fromInner (h : FROM_INNER <+: msg) :
    server.channelRead0 ctx msg =
      ⟨server, .fromInner,
        server.clientConnection.toList.map fun connection =>
          (connection, msg.drop FROM_INNER.length), false⟩ := by
  have hregister : ¬ judge msg REGISTER.length REGISTER = true := fun hregister =>
    not_fromInner_of_register (judge_iff.mp hregister) h
  rw [channelRead0, if_neg hregister, if_pos (judge_iff.mpr h)]

theorem channelRead0_fromClient (hregister : ¬ REGISTER <+: msg) (hinner : ¬ FROM_INNER <+: msg) :
    server.channelRead0 ctx msg =
      ⟨{ server with clientConnection := some ctx }, .fromClient,
        server.ngrokCliConnection.toList.map fun connection => (connection, msg),
        server.ngrokCliConnection.isNone⟩ := by
  rw [channelRead0, if_neg (mt judge_iff.mp hregister), if_neg (mt judge_iff.mp hinner)]

end TcpServer

/-! ## The tunnel -/

section Tunnel

variable (C : Type)

/-- A message that was read; `answered` is the connection whose message it answers. -/
structure Read where
  ctx : Connection C
  msg : Bytes
  taken : Taken
  writes : List (Connection C × Bytes)
  answered : Option (Connection C)

/-- The server, the connections that were closed, and at the inner service the connections of
the messages that are not answered yet, oldest first. -/
structure Tunnel where
  server : TcpServer C
  closed : List (Connection C)
  pending : List (Connection C)
  reads : List (Read C)

end Tunnel

/-- What a client sent was taken for that, and an answer was written to the connection whose
message it answers, and nowhere else. -/
def Read.Isolated {C : Type} (r : Read C) : Prop :=
  (∀ c, r.ctx = .client c → r.taken = .fromClient) ∧
    ∀ connection, r.answered = some connection →
      r.writes = [(connection, r.msg.drop FROM_INNER.length)]

namespace Tunnel

variable {C : Type}

def start : Tunnel C := ⟨⟨none, none⟩, [], [], []⟩

def Isolated (s : Tunnel C) : Prop := ∀ r ∈ s.reads, r.Isolated

/-- The slots are right: the ngrok-cli is in its own, and the other has the connection of the
newest message that waits for an answer. -/
structure Slots (s : Tunnel C) : Prop where
  ngrokCli : ∀ connection, s.server.ngrokCliConnection = some connection → connection = .ngrokCli
  unregistered : s.server.ngrokCliConnection = none → s.pending = []
  last : ∀ connection, s.pending.getLast? = some connection →
    s.server.clientConnection = some connection

theorem slots_start : (start : Tunnel C).Slots where
  ngrokCli _ h := by cases h
  unregistered _ := rfl
  last _ h := by cases h

/-- An answer goes to the connection of the newest message that waits. -/
theorem Slots.writes_answer {s : Tunnel C} (h : s.Slots) {newest : Connection C}
    (hnewest : s.pending.getLast? = some newest) (data : Bytes) :
    (s.server.clientConnection.toList.map fun connection => (connection, data)) =
      [(newest, data)] := by
  rw [h.last newest hnewest]
  rfl

variable [DecidableEq C]

/-- Nothing is read: no bytes, a closed connection, or nothing that the inner service could
answer. -/
def Unread (s : Tunnel C) (ctx : Connection C) (msg : Bytes) : Prop :=
  msg = [] ∨ ctx ∈ s.closed ∨ ctx = .ngrokCli ∧ FROM_INNER <+: msg ∧ s.pending = []

instance (s : Tunnel C) (ctx : Connection C) (msg : Bytes) : Decidable (s.Unread ctx msg) := by
  unfold Unread
  infer_instance

def read (s : Tunnel C) (ctx : Connection C) (msg : Bytes) : Tunnel C :=
  let out := s.server.channelRead0 ctx msg
  let answers : Bool := ctx = .ngrokCli && out.taken = .fromInner
  { server := out.server
    closed := if out.thrown then ctx :: s.closed else s.closed
    pending :=
      if answers then s.pending.tail
      else if out.taken = .fromClient ∧ s.server.ngrokCliConnection = some .ngrokCli then
        s.pending ++ [ctx]
      else s.pending
    reads := ⟨ctx, msg, out.taken, out.writes, if answers then s.pending.head? else none⟩ ::
      s.reads }

def step (s : Tunnel C) (message : Connection C × Bytes) : Tunnel C :=
  if s.Unread message.1 message.2 then s else s.read message.1 message.2

/-- A client's message begins with neither of the texts; where the inner service answers, the
oldest and the newest message that wait for an answer are from one connection. -/
def Unambiguous (s : Tunnel C) (message : Connection C × Bytes) : Prop :=
  ¬ s.Unread message.1 message.2 →
    (∀ c, message.1 = .client c → ¬ REGISTER <+: message.2 ∧ ¬ FROM_INNER <+: message.2) ∧
    (message.1 = .ngrokCli → FROM_INNER <+: message.2 → s.pending.head? = s.pending.getLast?)

/-! ### What is read -/

section Read

variable {s : Tunnel C} {ctx : Connection C} {msg : Bytes}

theorem read_register (h : REGISTER <+: msg) :
    s.read ctx msg =
      { s with
        server := { s.server with ngrokCliConnection := some ctx }
        reads := ⟨ctx, msg, .registration, [(ctx, REGISTER_OK)], none⟩ :: s.reads } := by
  simp [read, TcpServer.channelRead0_register h]

theorem read_answer (h : FROM_INNER <+: msg) :
    s.read .ngrokCli msg =
      { s with
        pending := s.pending.tail
        reads := ⟨.ngrokCli, msg, .fromInner,
          s.server.clientConnection.toList.map fun connection =>
            (connection, msg.drop FROM_INNER.length), s.pending.head?⟩ :: s.reads } := by
  simp [read, TcpServer.channelRead0_fromInner h]

theorem read_fromInner_client (h : FROM_INNER <+: msg) (c : C) :
    s.read (.client c) msg =
      { s with
        reads := ⟨.client c, msg, .fromInner,
          s.server.clientConnection.toList.map fun connection =>
            (connection, msg.drop FROM_INNER.length), none⟩ :: s.reads } := by
  simp [read, TcpServer.channelRead0_fromInner h]

/-- With nobody registered there is an exception; otherwise the message waits for its answer. -/
theorem read_fromClient (hregister : ¬ REGISTER <+: msg) (hinner : ¬ FROM_INNER <+: msg) :
    s.read ctx msg =
      { server := { s.server with clientConnection := some ctx }
        closed := if s.server.ngrokCliConnection.isNone then ctx :: s.closed else s.closed
        pending :=
          if s.server.ngrokCliConnection = some .ngrokCli then s.pending ++ [ctx] else s.pending
        reads := ⟨ctx, msg, .fromClient,
          s.server.ngrokCliConnection.toList.map fun connection => (connection, msg), none⟩ ::
          s.reads } := by
  simp [read, TcpServer.channelRead0_fromClient hregister hinner]

theorem Slots.register (h : s.Slots) (hmsg : REGISTER <+: msg) : (s.read .ngrokCli msg).Slots := by
  rw [read_register hmsg]
  refine ⟨fun connection hconnection => ?_, fun hnone => ?_, h.last⟩
  · exact (Option.some.inj hconnection).symm
  · cases hnone

theorem Slots.answer (h : s.Slots) (hmsg : FROM_INNER <+: msg) : (s.read .ngrokCli msg).Slots := by
  rw [read_answer hmsg]
  refine ⟨h.ngrokCli, fun hnone => ?_, fun connection hlast => h.last connection ?_⟩
  · simp only
    rw [h.unregistered hnone]
    rfl
  · cases hpending : s.pending with
    | nil =>
      simp only [hpending] at hlast
      cases hlast
    | cons first rest =>
      simp only [hpending, List.tail_cons] at hlast
      rw [List.getLast?_cons, hlast]
      rfl

theorem Slots.fromClient (h : s.Slots) (hregister : ¬ REGISTER <+: msg)
    (hinner : ¬ FROM_INNER <+: msg) : (s.read ctx msg).Slots := by
  rw [read_fromClient hregister hinner]
  cases hslot : s.server.ngrokCliConnection with
  | none =>
    refine ⟨fun connection hconnection => ?_, fun _ => ?_, fun connection hlast => ?_⟩
    · simp only [hslot] at hconnection
      cases hconnection
    · simpa using h.unregistered hslot
    · simp only [reduceCtorEq, if_false, h.unregistered hslot] at hlast
      cases hlast
  | some registered =>
    have hregistered := h.ngrokCli registered hslot
    subst hregistered
    refine ⟨h.ngrokCli, fun hnone => ?_, fun connection hlast => ?_⟩
    · simp only [hslot] at hnone
      cases hnone
    · simpa using hlast

end Read

/-! ### Whole runs -/

theorem isolated_step {s : Tunnel C} {message : Connection C × Bytes} (h : s.Slots)
    (hisolated : s.Isolated) (hclear : s.Unambiguous message) :
    (s.step message).Slots ∧ (s.step message).Isolated := by
  obtain ⟨ctx, msg⟩ := message
  unfold step
  by_cases hunread : s.Unread ctx msg
  · rw [if_pos hunread]
    exact ⟨h, hisolated⟩
  rw [if_neg hunread]
  obtain ⟨hclient, hanswer⟩ := hclear hunread
  by_cases hregister : REGISTER <+: msg
  · cases ctx with
    | client c => exact absurd hregister (hclient c rfl).1
    | ngrokCli =>
      refine ⟨h.register hregister, ?_⟩
      rw [read_register hregister]
      exact List.forall_mem_cons.mpr
        ⟨⟨fun c hc => (by cases hc), fun connection hconnection => (by cases hconnection)⟩, hisolated⟩
  by_cases hinner : FROM_INNER <+: msg
  · cases ctx with
    | client c => exact absurd hinner (hclient c rfl).2
    | ngrokCli =>
      refine ⟨h.answer hinner, ?_⟩
      rw [read_answer hinner]
      refine List.forall_mem_cons.mpr ⟨⟨fun c hc => (by cases hc), fun connection hfirst => ?_⟩,
        hisolated⟩
      exact h.writes_answer ((hanswer rfl hinner).symm.trans hfirst) _
  · refine ⟨h.fromClient hregister hinner, ?_⟩
    rw [read_fromClient hregister hinner]
    exact List.forall_mem_cons.mpr
      ⟨⟨fun _ _ => rfl, fun connection hconnection => (by cases hconnection)⟩, hisolated⟩

theorem not_isolated_step {s : Tunnel C} {message : Connection C × Bytes} (h : s.Slots)
    (hclear : ¬ s.Unambiguous message) : ¬ (s.step message).Isolated := by
  obtain ⟨ctx, msg⟩ := message
  unfold Unambiguous at hclear
  push Not at hclear
  obtain ⟨hread, hambiguous⟩ := hclear
  unfold step
  rw [if_neg hread]
  intro hisolated
  cases ctx with
  | client c =>
    -- the message is taken for one of the two
    by_cases hregister : REGISTER <+: msg
    · rw [read_register hregister] at hisolated
      have htaken := (List.forall_mem_cons.mp hisolated).1.1 c rfl
      cases htaken
    by_cases hinner : FROM_INNER <+: msg
    · rw [read_fromInner_client hinner] at hisolated
      have htaken := (List.forall_mem_cons.mp hisolated).1.1 c rfl
      cases htaken
    · obtain ⟨hcli, -⟩ := hambiguous fun _ _ => ⟨hregister, hinner⟩
      cases hcli
  | ngrokCli =>
    -- the answer to the oldest message goes to the connection of the newest
    obtain ⟨-, hinner, hne⟩ := hambiguous fun c hc => (by cases hc)
    have hpending : s.pending ≠ [] := fun hnil => hread (.inr (.inr ⟨rfl, hinner, hnil⟩))
    have hfirst := List.head?_eq_some_head hpending
    have hlast := List.getLast?_eq_some_getLast hpending
    rw [read_answer hinner, h.writes_answer hlast] at hisolated
    have hwrites := (List.forall_mem_cons.mp hisolated).1.2 _ hfirst
    simp only [List.cons.injEq, Prod.mk.injEq, and_true] at hwrites
    exact hne (by rw [hfirst, hlast, hwrites])

/-- The tunnel isolates its clients throughout a run exactly if every message is clear. -/
theorem isolated_iff (messages : List (Connection C × Bytes)) :
    Throughout step Isolated (start : Tunnel C) messages ↔
      Along step Unambiguous (start : Tunnel C) messages := by
  refine throughout_iff_along (fun _ s => s.Slots ∧ s.Isolated) (fun _ _ h => h.2)
    (fun _ _ _ h hclear => isolated_step h.1 h.2 hclear)
    (fun _ _ _ h hclear => not_isolated_step h.1 hclear) ⟨slots_start, fun _ h => by cases h⟩

/-- An external client that sends the text registers. -/
theorem not_isolated :
    ¬ ∀ (C : Type) (_ : DecidableEq C) (messages : List (Connection C × Bytes)),
      Throughout step Isolated (start : Tunnel C) messages := by
  intro h
  have hisolated := (h Nat inferInstance [(.client 0, REGISTER)]).last
  have hunread : ¬ (start : Tunnel Nat).Unread (.client 0) REGISTER := by decide +kernel
  rw [run_cons, step, if_neg hunread, read_register List.prefix_rfl] at hisolated
  have htaken := (List.forall_mem_cons.mp hisolated).1.1 0 rfl
  cases htaken

end Tunnel

end BigPlan.Ngrok
