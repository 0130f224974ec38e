import BigPlan.Lib.Framing
import BigPlan.Lib.Java

/-!
# Messages between job server and executor

Each side serializes a message, writes the delimiter behind it, and cuts what it receives at the
delimiter again. Nothing in the serialized form is escaped, so a message comes through as long
as the delimiter does not show up in it.
-/
namespace BigPlan.Job.Wire

open Lib.Framing Lib.Java

structure ServerMessage where
  messageId : Option String
  code : JInt
  error : Option String
  data : Option (List UInt8)
  type : JInt
  deriving DecidableEq, Repr

structure ClientMessage where
  messageId : Option String
  code : JInt
  error : Option String
  data : Option (List UInt8)
  type : JInt
  deriving DecidableEq, Repr

/-- `Constants.DELIMITER`. -/
def DELIMITER : Delimiter UInt8 where
  bytes := getBytes "$$_$$"
  ne_nil := by decide

def maxFrameLength : ℕ := 4096

/-! ## The handlers -/

section Handlers

variable {Message : Type} (bean2Byte : Message → Option (List UInt8))
  (byte2Bean : List UInt8 → Option Message)

/-- `null` is not written. -/
def encode (message : Message) : List UInt8 :=
  match bean2Byte message with
  | some bytes => bytes ++ DELIMITER.bytes
  | none => []

/-- An empty frame is passed over, and a frame that `byte2Bean` throws at is lost. -/
def decode (bytes : List UInt8) : Option Message :=
  if 0 < bytes.length then byte2Bean bytes else none

/-- The messages of the fragments that arrive one after the other. -/
def received (decode : List UInt8 → Option Message) (fragments : List (List UInt8)) :
    List Message :=
  (frames maxFrameLength DELIMITER ⟨[], false⟩ fragments).filterMap decode

end Handlers

def ServerMessageEncodeHandler.encode (bean2Byte : ServerMessage → Option (List UInt8)) :
    ServerMessage → List UInt8 :=
  Wire.encode bean2Byte

def ServerMessageDecodeHandler.decode (byte2Bean : List UInt8 → Option ServerMessage) :
    List UInt8 → Option ServerMessage :=
  Wire.decode byte2Bean

def ClientMessageEncodeHandler.encode (bean2Byte : ClientMessage → Option (List UInt8)) :
    ClientMessage → List UInt8 :=
  Wire.encode bean2Byte

def ClientMessageDecodeHandler.decode (byte2Bean : List UInt8 → Option ClientMessage) :
    List UInt8 → Option ClientMessage :=
  Wire.decode byte2Bean

/-! ## Round trip -/

section RoundTrip

variable {Message : Type} {bean2Byte : Message → Option (List UInt8)}
  {byte2Bean : List UInt8 → Option Message} {messages : List Message}

def Undoes (bean2Byte : Message → Option (List UInt8))
    (byte2Bean : List UInt8 → Option Message) : Prop :=
  ∀ message, ∃ bytes, bean2Byte message = some bytes ∧ byte2Bean bytes = some message

/-- The serialized forms leave room for the delimiter. -/
def Short (bean2Byte : Message → Option (List UInt8)) (messages : List Message) : Prop :=
  ∀ message ∈ messages, ∀ bytes, bean2Byte message = some bytes →
    bytes.length + DELIMITER.bytes.length ≤ maxFrameLength

/-- Whatever decoder undoes the encoding, and however the stream is cut into fragments, the
messages are received. -/
def Delivers (encode : (Message → Option (List UInt8)) → Message → List UInt8)
    (decode : (List UInt8 → Option Message) → List UInt8 → Option Message)
    (bean2Byte : Message → Option (List UInt8)) (messages : List Message) : Prop :=
  ∀ byte2Bean, Undoes bean2Byte byte2Bean → ∀ fragments,
    fragments.flatten = messages.flatMap (encode bean2Byte) →
      received (decode byte2Bean) fragments = messages

/-- No serialized form is empty or lets the delimiter begin before its end. -/
def WellFramed (bean2Byte : Message → Option (List UInt8)) (messages : List Message) : Prop :=
  ∀ message ∈ messages, ∀ bytes, bean2Byte message = some bytes →
    bytes ≠ [] ∧ Clean DELIMITER bytes

theorem flatMap_encode (messages : List Message) :
    messages.flatMap (encode bean2Byte) = stream DELIMITER (messages.filterMap bean2Byte) := by
  induction messages with
  | nil => rfl
  | cons message messages ih =>
    rw [List.flatMap_cons, ih]
    cases hbytes : bean2Byte message with
    | none => rw [encode, hbytes, List.filterMap_cons_none hbytes, List.nil_append]
    | some bytes => rw [encode, hbytes, List.filterMap_cons_some hbytes, stream_cons]

theorem filterMap_decode (hundo : Undoes bean2Byte byte2Bean)
    (hframed : WellFramed bean2Byte messages) :
    (messages.filterMap bean2Byte).filterMap (decode byte2Bean) = messages := by
  induction messages with
  | nil => rfl
  | cons message messages ih =>
    obtain ⟨bytes, hbytes, hmessage⟩ := hundo message
    have hpos : 0 < bytes.length :=
      List.length_pos_of_ne_nil (hframed message List.mem_cons_self bytes hbytes).1
    have hdecode : decode byte2Bean bytes = some message := by
      rw [decode, if_pos hpos, hmessage]
    rw [List.filterMap_cons_some hbytes, List.filterMap_cons_some hdecode,
      ih fun message hmem => hframed message (List.mem_cons_of_mem _ hmem)]

theorem delivers_of_wellFramed (hshort : Short bean2Byte messages)
    (hframed : WellFramed bean2Byte messages) : Delivers encode decode bean2Byte messages := by
  intro byte2Bean hundo fragments hflatten
  rw [flatMap_encode] at hflatten
  have hfits : ∀ bytes ∈ messages.filterMap bean2Byte, Fits maxFrameLength DELIMITER bytes := by
    intro bytes hbytes
    obtain ⟨message, hmem, hmessage⟩ := List.mem_filterMap.mp hbytes
    exact ⟨(hframed message hmem bytes hmessage).2, hshort message hmem bytes hmessage⟩
  have hwaits : Waits DELIMITER [] (messages.filterMap bean2Byte) := by
    intro bytes _
    have hpos := List.length_pos_of_ne_nil DELIMITER.ne_nil
    rw [List.length_nil]
    omega
  rw [received, frames_stream hfits hflatten hwaits]
  exact filterMap_decode hundo hframed

/-! ### Frames that are not serialized forms -/

/-- A decoder that makes one message of all bytes that are no serialized form. -/
noncomputable def guess (bean2Byte : Message → Option (List UInt8))
    (byte2Bean : List UInt8 → Option Message) (other : Message) (bytes : List UInt8) :
    Option Message :=
  open Classical in
  if ∃ message, bean2Byte message = some bytes then byte2Bean bytes else some other

theorem guess_of_some {message : Message} {bytes : List UInt8} (hundo : Undoes bean2Byte byte2Bean)
    (hbytes : bean2Byte message = some bytes) (other : Message) :
    guess bean2Byte byte2Bean other bytes = some message := by
  obtain ⟨bytes', hbytes', hmessage⟩ := hundo message
  obtain rfl : bytes' = bytes := Option.some.inj (hbytes'.symm.trans hbytes)
  rw [guess, if_pos ⟨message, hbytes⟩, hmessage]

theorem undoes_guess (hundo : Undoes bean2Byte byte2Bean) (other : Message) :
    Undoes bean2Byte (guess bean2Byte byte2Bean other) := by
  intro message
  obtain ⟨bytes, hbytes, -⟩ := hundo message
  exact ⟨bytes, hbytes, guess_of_some hundo hbytes other⟩

/-- Frames that give the messages back under every guess are their serialized forms. -/
theorem eq_filterMap_of_guess [Nontrivial Message] (hundo : Undoes bean2Byte byte2Bean)
    {bs : List (List UInt8)}
    (h : ∀ other, bs.filterMap (guess bean2Byte byte2Bean other) = messages) :
    bs = messages.filterMap bean2Byte := by
  induction bs generalizing messages with
  | nil =>
    obtain ⟨other⟩ : Nonempty Message := inferInstance
    rw [← h other]
    rfl
  | cons bytes bs ih =>
    by_cases hrange : ∃ message, bean2Byte message = some bytes
    · obtain ⟨message, hbytes⟩ := hrange
      have htail : ∀ other, message :: bs.filterMap (guess bean2Byte byte2Bean other) =
          messages := by
        intro other
        rw [← h other, List.filterMap_cons_some (guess_of_some hundo hbytes other)]
      obtain ⟨other⟩ : Nonempty Message := inferInstance
      obtain ⟨rest, rfl⟩ : ∃ rest, messages = message :: rest := ⟨_, (htail other).symm⟩
      rw [List.filterMap_cons_some hbytes, ← ih fun other => (List.cons.inj (htail other)).2]
    · exfalso
      obtain ⟨one, two, hne⟩ := exists_pair_ne Message
      have hhead : ∀ other, messages.head? = some other := by
        intro other
        have hguess : guess bean2Byte byte2Bean other bytes = some other := if_neg hrange
        rw [← h other, List.filterMap_cons_some hguess]
        rfl
      exact hne (Option.some.inj ((hhead one).symm.trans (hhead two)))

theorem filterMap_decode_guess (other : Message) (bs : List (List UInt8)) :
    bs.filterMap (decode (guess bean2Byte byte2Bean other)) =
      (bs.filter fun bytes => 0 < bytes.length).filterMap (guess bean2Byte byte2Bean other) := by
  rw [List.filterMap_filter]
  apply List.filterMap_congr
  intro bytes _
  simp only [decode, decide_eq_true_eq]

theorem wellFramed_of_delivers [Nontrivial Message] (hundo : Undoes bean2Byte byte2Bean)
    (h : Delivers encode decode bean2Byte messages) : WellFramed bean2Byte messages := by
  -- the stream in one fragment, seen by a decoder that guesses
  have hguess : ∀ other, ((frames maxFrameLength DELIMITER ⟨[], false⟩
      [messages.flatMap (encode bean2Byte)]).filter fun bytes => 0 < bytes.length).filterMap
        (guess bean2Byte byte2Bean other) = messages := by
    intro other
    rw [← filterMap_decode_guess]
    exact h _ (undoes_guess hundo other) _ (by simp)
  have hframes := eq_filterMap_of_guess hundo hguess
  intro message hmem bytes hbytes
  have hframe : bytes ∈ messages.filterMap bean2Byte :=
    List.mem_filterMap.mpr ⟨message, hmem, hbytes⟩
  rw [← hframes, List.mem_filter, decide_eq_true_eq] at hframe
  exact ⟨List.ne_nil_of_length_pos hframe.2, clean_of_mem_frames hframe.1⟩

theorem delivers_iff [Nontrivial Message] (hundo : ∃ byte2Bean, Undoes bean2Byte byte2Bean)
    (hshort : Short bean2Byte messages) :
    Delivers encode decode bean2Byte messages ↔ WellFramed bean2Byte messages := by
  obtain ⟨byte2Bean, hundo⟩ := hundo
  exact ⟨wellFramed_of_delivers hundo, delivers_of_wellFramed hshort⟩

end RoundTrip

/-! ## Both directions -/

instance : Nontrivial ServerMessage := ⟨⟨none, 0, none, none, 0⟩, ⟨none, 1, none, none, 0⟩, by decide⟩

instance : Nontrivial ClientMessage := ⟨⟨none, 0, none, none, 0⟩, ⟨none, 1, none, none, 0⟩, by decide⟩

/-- The messages of a server, and those of a client, are all received exactly if no serialized
form among them is empty or brings a delimiter along. -/
theorem messages_delivered_iff (server2Byte : ServerMessage → Option (List UInt8))
    (client2Byte : ClientMessage → Option (List UInt8))
    (hserver : ∃ byte2Bean, Undoes server2Byte byte2Bean)
    (hclient : ∃ byte2Bean, Undoes client2Byte byte2Bean)
    (serverMessages : List ServerMessage) (clientMessages : List ClientMessage)
    (hserverShort : Short server2Byte serverMessages)
    (hclientShort : Short client2Byte clientMessages) :
    (Delivers ServerMessageEncodeHandler.encode ServerMessageDecodeHandler.decode server2Byte
        serverMessages ↔ WellFramed server2Byte serverMessages) ∧
      (Delivers ClientMessageEncodeHandler.encode ClientMessageDecodeHandler.decode client2Byte
        clientMessages ↔ WellFramed client2Byte clientMessages) :=
  ⟨delivers_iff hserver hserverShort, delivers_iff hclient hclientShort⟩

/-! ### The serialized form -/

section Protostuff

variable {tag : UInt8} {r s : List UInt8} {n m fuel fuel' : ℕ}

/-- Seven bits a byte, the lowest first. -/
def varintOf : ℕ → ℕ → List UInt8
  | 0, _ => []
  | fuel + 1, n =>
    if n < 128 then [UInt8.ofNat n] else UInt8.ofNat (n % 128 + 128) :: varintOf fuel (n / 128)

def varint (n : ℕ) : List UInt8 := varintOf (n + 1) n

def writeByteArray (tag : UInt8) : Option (List UInt8) → List UInt8
  | none => []
  | some bytes => tag :: (varint bytes.length ++ bytes)

def writeString (tag : UInt8) (text : Option String) : List UInt8 :=
  writeByteArray tag (text.map fun (text : String) => getBytes (some text))

def writeInt32 (tag : UInt8) (n : JInt) : List UInt8 := tag :: varint (n.signExtend 64).toNat

/-- Fields by their tags; `null` is left out, an `int` never is. -/
def toByteArray (messageId : Option String) (code : JInt) (error : Option String)
    (data : Option (List UInt8)) (type : JInt) : List UInt8 :=
  writeString 0x0A messageId ++ (writeInt32 0x10 code ++ (writeString 0x1A error ++
    (writeByteArray 0x22 data ++ writeInt32 0x28 type)))

def ServerMessage.toByteArray (message : ServerMessage) : List UInt8 :=
  Wire.toByteArray message.messageId message.code message.error message.data message.type

def ClientMessage.toByteArray (message : ClientMessage) : List UInt8 :=
  Wire.toByteArray message.messageId message.code message.error message.data message.type

theorem ofNat_inj_of_lt (hn : n < 256) (hm : m < 256) (h : UInt8.ofNat n = UInt8.ofNat m) :
    n = m := by
  have htoNat := congrArg UInt8.toNat h
  rwa [UInt8.toNat_ofNat', UInt8.toNat_ofNat', Nat.mod_eq_of_lt hn, Nat.mod_eq_of_lt hm] at htoNat

/-- No number's bytes begin another number's. -/
theorem varintOf_append_inj (hn : n < fuel) (hm : m < fuel')
    (h : varintOf fuel n ++ r = varintOf fuel' m ++ s) : n = m ∧ r = s := by
  induction fuel generalizing n m fuel' with
  | zero => exact absurd hn (Nat.not_lt_zero _)
  | succ fuel ih =>
    cases fuel' with
    | zero => exact absurd hm (Nat.not_lt_zero _)
    | succ fuel' =>
      rw [varintOf, varintOf] at h
      split_ifs at h with hsmall hsmall' hsmall'
      · obtain ⟨hbyte, hrest⟩ := List.cons.inj h
        exact ⟨ofNat_inj_of_lt (by omega) (by omega) hbyte, hrest⟩
      · have hbyte := ofNat_inj_of_lt (by omega) (by omega) (List.cons.inj h).1
        omega
      · have hbyte := ofNat_inj_of_lt (by omega) (by omega) (List.cons.inj h).1
        omega
      · obtain ⟨hbyte, hrest⟩ := List.cons.inj h
        have hlow := ofNat_inj_of_lt (by omega) (by omega) hbyte
        obtain ⟨hhigh, hrest⟩ := ih (by omega) (by omega) hrest
        exact ⟨by omega, hrest⟩

theorem varint_append_inj (h : varint n ++ r = varint m ++ s) : n = m ∧ r = s :=
  varintOf_append_inj (Nat.lt_succ_self n) (Nat.lt_succ_self m) h

theorem writeByteArray_append_inj {bytes bytes' : Option (List UInt8)}
    (hr : r.head? ≠ some tag) (hs : s.head? ≠ some tag)
    (h : writeByteArray tag bytes ++ r = writeByteArray tag bytes' ++ s) :
    bytes = bytes' ∧ r = s := by
  cases bytes with
  | none =>
    cases bytes' with
    | none => exact ⟨rfl, h⟩
    | some bytes' =>
      have hhead : r.head? = some tag := congrArg List.head? h
      exact absurd hhead hr
  | some bytes =>
    cases bytes' with
    | none =>
      have hhead : some tag = s.head? := congrArg List.head? h
      exact absurd hhead.symm hs
    | some bytes' =>
      have htail : varint bytes.length ++ bytes ++ r = varint bytes'.length ++ bytes' ++ s :=
        (List.cons.inj h).2
      rw [List.append_assoc, List.append_assoc] at htail
      obtain ⟨hlength, hbytes⟩ := varint_append_inj htail
      obtain ⟨rfl, hrest⟩ := List.append_inj hbytes hlength
      exact ⟨rfl, hrest⟩

theorem getBytes_inj {a b : String} (h : getBytes (some a) = getBytes (some b)) : a = b := by
  have hbytes (c : String) : c.toByteArray = (getBytes (some c)).toByteArray := by
    rw [← String.ofList_toList (s := c), String.toByteArray_ofList, List.utf8Encode]
    simp [getBytes]
  rw [← String.toByteArray_inj, hbytes, hbytes, h]

theorem writeString_append_inj {text text' : Option String}
    (hr : r.head? ≠ some tag) (hs : s.head? ≠ some tag)
    (h : writeString tag text ++ r = writeString tag text' ++ s) : text = text' ∧ r = s := by
  obtain ⟨hbytes, hrest⟩ := writeByteArray_append_inj hr hs h
  refine ⟨?_, hrest⟩
  exact Option.map_injective (fun _ _ => getBytes_inj) hbytes

theorem writeInt32_append_inj {a b : JInt} (h : writeInt32 tag a ++ r = writeInt32 tag b ++ s) :
    a = b ∧ r = s := by
  obtain ⟨hnat, hrest⟩ := varint_append_inj (List.cons.inj h).2
  have hlong : a.signExtend 64 = b.signExtend 64 := BitVec.eq_of_toNat_eq hnat
  have hint := congrArg BitVec.toInt hlong
  rw [BitVec.toInt_signExtend_of_le (by decide), BitVec.toInt_signExtend_of_le (by decide)] at hint
  exact ⟨BitVec.eq_of_toInt_eq hint, hrest⟩

theorem head_ne_of_data (data : Option (List UInt8)) (type : JInt) :
    (writeByteArray 0x22 data ++ writeInt32 0x28 type).head? ≠ some 0x1A := by
  have hdata : some (0x22 : UInt8) ≠ some 0x1A := by decide
  have htype : some (0x28 : UInt8) ≠ some 0x1A := by decide
  cases data with
  | none => exact htype
  | some bytes => exact hdata

theorem toByteArray_inj {messageId messageId' error error' : Option String} {code code' : JInt}
    {data data' : Option (List UInt8)} {type type' : JInt}
    (h : toByteArray messageId code error data type =
      toByteArray messageId' code' error' data' type') :
    messageId = messageId' ∧ code = code' ∧ error = error' ∧ data = data' ∧ type = type' := by
  have hcodeTag (code : JInt) (rest : List UInt8) :
      (writeInt32 0x10 code ++ rest).head? ≠ some 0x0A := by
    have hne : some (0x10 : UInt8) ≠ some 0x0A := by decide
    exact hne
  have htypeTag (type : JInt) : (writeInt32 0x28 type).head? ≠ some 0x22 := by
    have hne : some (0x28 : UInt8) ≠ some 0x22 := by decide
    exact hne
  obtain ⟨hid, h⟩ := writeString_append_inj (hcodeTag _ _) (hcodeTag _ _) h
  obtain ⟨hcode, h⟩ := writeInt32_append_inj h
  obtain ⟨herror, h⟩ := writeString_append_inj (head_ne_of_data _ _) (head_ne_of_data _ _) h
  obtain ⟨hdata, h⟩ := writeByteArray_append_inj (htypeTag _) (htypeTag _) h
  have hlast : writeInt32 0x28 type ++ [] = writeInt32 0x28 type' ++ [] := by
    rw [List.append_nil, List.append_nil, h]
  exact ⟨hid, hcode, herror, hdata, (writeInt32_append_inj hlast).1⟩

theorem exists_undoes {Message : Type} {bean2Byte : Message → List UInt8}
    (hinj : Function.Injective bean2Byte) :
    ∃ byte2Bean, Undoes (fun message => some (bean2Byte message)) byte2Bean := by
  classical
  refine ⟨Function.partialInv bean2Byte, fun message => ⟨_, rfl, ?_⟩⟩
  exact (hinj.isPartialInv message _).mpr rfl

theorem serverMessage_injective : Function.Injective ServerMessage.toByteArray := by
  intro a b h
  obtain ⟨hid, hcode, herror, hdata, htype⟩ := toByteArray_inj h
  cases a
  cases b
  simp_all

theorem clientMessage_injective : Function.Injective ClientMessage.toByteArray := by
  intro a b h
  obtain ⟨hid, hcode, herror, hdata, htype⟩ := toByteArray_inj h
  cases a
  cases b
  simp_all

end Protostuff

/-- A task, and its result. -/
theorem messages_delivered_iff_task :
    Delivers ServerMessageEncodeHandler.encode ServerMessageDecodeHandler.decode
        (fun message => some message.toByteArray) [⟨some "m1", 0, none, some [1, 2], 1⟩] ∧
      Delivers ClientMessageEncodeHandler.encode ClientMessageDecodeHandler.decode
        (fun message => some message.toByteArray) [⟨some "m1", 0, none, some [3], 2⟩] := by
  have hiff := messages_delivered_iff _ _ (exists_undoes serverMessage_injective)
    (exists_undoes clientMessage_injective) [⟨some "m1", 0, none, some [1, 2], 1⟩]
    [⟨some "m1", 0, none, some [3], 2⟩] (by simp only [Short]; decide +kernel)
    (by simp only [Short]; decide +kernel)
  refine ⟨hiff.1.mpr ?_, hiff.2.mpr ?_⟩
  · simp only [WellFramed]
    decide +kernel
  · simp only [WellFramed]
    decide +kernel

/-- A message id may be the delimiter itself. -/
theorem not_messages_delivered :
    ¬ ∀ (server2Byte : ServerMessage → Option (List UInt8)) (messages : List ServerMessage),
      (∃ byte2Bean, Undoes server2Byte byte2Bean) → Short server2Byte messages →
        Delivers ServerMessageEncodeHandler.encode ServerMessageDecodeHandler.decode server2Byte
          messages := by
  intro h
  obtain ⟨byte2Bean, hundo⟩ := exists_undoes serverMessage_injective
  have hdelivers := h _ [⟨some "$$_$$", 0, none, none, 1⟩] ⟨byte2Bean, hundo⟩
    (by simp only [Short]; decide +kernel)
  have hframed := wellFramed_of_delivers hundo hdelivers
  have hclean := (hframed _ List.mem_cons_self _ rfl).2
  revert hclean
  decide +kernel

end BigPlan.Job.Wire
