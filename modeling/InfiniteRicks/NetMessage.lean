import InfiniteRicks.Serialize

/-!
# Message framing

`CNode::ReceiveMsgBytes` with the two partial readers of `CNetMessage` (`net.cpp`), and
what `ProcessMessages` takes from the front of the queue. The abstract receiver
`Framing` takes one byte at a time; the code does the same to the bytes of a chunk as to
the bytes one by one, so the way a stream is cut does not matter.
-/

namespace InfiniteRicks

open Library Library.Codec

/-- Replace bytes of a buffer from a position on, as `memcpy` does. -/
def overwrite (buffer : Bytes) (position : Nat) (data : Bytes) : Bytes :=
  buffer.take position ++ data ++ buffer.drop (position + data.length)

theorem length_overwrite {buffer data : Bytes} {position : Nat} (fits : position + data.length ≤ buffer.length) :
    (overwrite buffer position data).length = buffer.length := by
  simp only [overwrite, List.length_append, List.length_take, List.length_drop]
  omega

theorem take_overwrite {buffer data : Bytes} {position : Nat} (fits : position ≤ buffer.length) :
    (overwrite buffer position data).take (position + data.length) = buffer.take position ++ data := by
  have front : (buffer.take position ++ data).length = position + data.length := by
    simp only [List.length_append, List.length_take]
    omega
  rw [overwrite, ← front, List.take_left]

/-- `pchMessageStart`. -/
def pchMessageStart : Bytes := [0xc9, 0x09, 0x6e, 0x5a]

/-- `CMessageHeader`. -/
structure CMessageHeader where
  pchMessageStart : Bytes
  pchCommand : Bytes
  nMessageSize : UInt32
  nChecksum : UInt32
deriving DecidableEq

namespace CMessageHeader

/-- `HEADER_SIZE`. -/
def headerSize : Nat := 24

def serialize (hdr : CMessageHeader) : Bytes :=
  hdr.pchMessageStart ++ (hdr.pchCommand ++ (writeUInt32 hdr.nMessageSize ++ writeUInt32 hdr.nChecksum))

def unserialize : Reader CDataStream CMessageHeader := do
  let pchMessageStart ← CDataStream.read 4
  let pchCommand ← CDataStream.read 12
  let nMessageSize ← readUInt32
  let nChecksum ← readUInt32
  return ⟨pchMessageStart, pchCommand, nMessageSize, nChecksum⟩

/-- The sizes of the two arrays. -/
def Shaped (hdr : CMessageHeader) : Prop := hdr.pchMessageStart.length = 4 ∧ hdr.pchCommand.length = 12

theorem unserialize_lawful : Lawful CDataStream.source Shaped serialize unserialize := by
  refine (CDataStream.read_lawful (by decide)).field pchMessageStart (fun _ shaped => shaped.1) ?_
  intro start four
  refine (CDataStream.read_lawful (by decide)).field pchCommand (fun _ shaped => shaped.1.2) ?_
  intro command twelve
  refine readUInt32_lawful.field nMessageSize (fun _ _ => trivial) ?_
  intro size _
  refine readUInt32_lawful.last nChecksum (fun _ _ => trivial) ?_
  rintro checksum - ⟨_, _, _, _⟩
  constructor
  · rintro ⟨⟨⟨⟨-, rfl⟩, rfl⟩, rfl⟩, rfl⟩
    rfl
  · rintro ⟨⟩
    exact ⟨⟨⟨⟨⟨four, twelve⟩, rfl⟩, rfl⟩, rfl⟩, rfl⟩

/-- The header in 24 bytes. -/
def ofBytes (hdrbuf : Bytes) : CMessageHeader :=
  ⟨hdrbuf.take 4, (hdrbuf.drop 4).take 12, UInt32.ofNat (CScript.littleEndian ((hdrbuf.drop 16).take 4)),
    UInt32.ofNat (CScript.littleEndian ((hdrbuf.drop 20).take 4))⟩

theorem writeUInt32_ofBytes {bytes : Bytes} (four : bytes.length = 4) :
    writeUInt32 (UInt32.ofNat (CScript.littleEndian bytes)) = bytes := by
  have small := littleEndian_lt bytes
  rw [four] at small
  rw [writeUInt32, UInt32.toNat_ofNat_of_lt' small, ← four, littleEndianBytes_littleEndian]

/-- Every 24 bytes are a header. -/
theorem serialize_ofBytes {hdrbuf : Bytes} (full : hdrbuf.length = headerSize) :
    (ofBytes hdrbuf).serialize = hdrbuf := by
  unfold headerSize at full
  have parts : hdrbuf.take 4 ++ ((hdrbuf.drop 4).take 12 ++ ((hdrbuf.drop 16).take 4 ++ (hdrbuf.drop 20).take 4)) =
      hdrbuf := by
    have tail : (hdrbuf.drop 20).take 4 = hdrbuf.drop 20 := List.take_of_length_le (by rw [List.length_drop]; omega)
    have third : (hdrbuf.drop 16).take 4 ++ hdrbuf.drop 20 = hdrbuf.drop 16 := by
      have next : hdrbuf.drop 20 = (hdrbuf.drop 16).drop 4 := by rw [List.drop_drop]
      rw [next, List.take_append_drop]
    have second : (hdrbuf.drop 4).take 12 ++ hdrbuf.drop 16 = hdrbuf.drop 4 := by
      have next : hdrbuf.drop 16 = (hdrbuf.drop 4).drop 12 := by rw [List.drop_drop]
      rw [next, List.take_append_drop]
    rw [tail, third, second, List.take_append_drop]
  unfold serialize ofBytes
  rw [writeUInt32_ofBytes, writeUInt32_ofBytes, parts]
  · rw [List.length_take, List.length_drop]
    omega
  · rw [List.length_take, List.length_drop]
    omega

theorem shaped_ofBytes {hdrbuf : Bytes} (full : hdrbuf.length = headerSize) : (ofBytes hdrbuf).Shaped := by
  unfold headerSize at full
  refine ⟨?_, ?_⟩
  · simp only [ofBytes, List.length_take]
    omega
  · simp only [ofBytes, List.length_take, List.length_drop]
    omega

/-- The header was read from its bytes. -/
def Read (hdr : CMessageHeader) : Prop := hdr.serialize.length = headerSize ∧ ofBytes hdr.serialize = hdr

theorem read_ofBytes {hdrbuf : Bytes} (full : hdrbuf.length = headerSize) : (ofBytes hdrbuf).Read := by
  unfold Read
  rw [serialize_ofBytes full]
  exact ⟨full, rfl⟩

/-- `hdrbuf >> hdr` does not throw for a full buffer. -/
theorem unserialize_ofBytes {hdrbuf : Bytes} (full : hdrbuf.length = headerSize) :
    ∃ after, unserialize (.ofBytes hdrbuf) = some (ofBytes hdrbuf, after) := by
  have room : (ofBytes hdrbuf).serialize.length ≤ CDataStream.source.room (.ofBytes hdrbuf) := by
    rw [serialize_ofBytes full, full]
    simp [CDataStream.source, CDataStream.ofBytes, headerSize]
  have shape : CDataStream.source.remaining (.ofBytes hdrbuf) = (ofBytes hdrbuf).serialize ++ [] := by
    rw [serialize_ofBytes full, List.append_nil]
    rfl
  obtain ⟨after, done, -, -⟩ := unserialize_lawful.reads (shaped_ofBytes full) shape room
  exact ⟨after, done⟩

end CMessageHeader

open CMessageHeader

/-- `CNetMessage`. Without the types of its streams, which the framing does not read. -/
structure CNetMessage where
  in_data : Bool
  hdrbuf : Bytes
  hdr : CMessageHeader
  nHdrPos : Nat
  vRecv : Bytes
  nDataPos : Nat

namespace CNetMessage

/-- The constructor, with the header that `CMessageHeader()` gives. -/
def new : CNetMessage :=
  ⟨false, List.replicate headerSize 0, ⟨pchMessageStart, 0 :: 1 :: List.replicate 10 0, 0xffffffff, 0⟩, 0, [], 0⟩

def complete (msg : CNetMessage) : Bool :=
  if !msg.in_data then false else msg.hdr.nMessageSize.toNat = msg.nDataPos

/-- `CNetMessage::readHeader`: the number of bytes handled, `none` for `-1`. Reading the header to its
end empties `hdrbuf`. -/
def readHeader (msg : CNetMessage) (pch : Bytes) : Option (Nat × CNetMessage) :=
  let nRemaining := headerSize - msg.nHdrPos
  let nCopy := min nRemaining pch.length
  let hdrbuf := overwrite msg.hdrbuf msg.nHdrPos (pch.take nCopy)
  let nHdrPos := msg.nHdrPos + nCopy
  if nHdrPos < headerSize then some (nCopy, { msg with hdrbuf := hdrbuf, nHdrPos := nHdrPos })
  else
    match CMessageHeader.unserialize (.ofBytes hdrbuf) with
    | none => none
    | some (hdr, _) =>
        if maxSize < hdr.nMessageSize.toNat then none
        else some (nCopy, { msg with in_data := true, hdrbuf := [], hdr := hdr, nHdrPos := nHdrPos })

/-- `std::vector::resize`. -/
def resize (buffer : Bytes) (size : Nat) : Bytes := buffer.take size ++ List.replicate (size - buffer.length) 0

/-- `CNetMessage::readData`, with a buffer that grows up to 256 KiB ahead. -/
def readData (msg : CNetMessage) (pch : Bytes) : Nat × CNetMessage :=
  let nRemaining := msg.hdr.nMessageSize.toNat - msg.nDataPos
  let nCopy := min nRemaining pch.length
  let vRecv :=
    if msg.vRecv.length < msg.nDataPos + nCopy then
      resize msg.vRecv (min msg.hdr.nMessageSize.toNat (msg.nDataPos + nCopy + 256 * 1024))
    else msg.vRecv
  (nCopy, { msg with vRecv := overwrite vRecv msg.nDataPos (pch.take nCopy), nDataPos := msg.nDataPos + nCopy })

/-- The reader for the part of the message that is being received. -/
def absorb (msg : CNetMessage) (pch : Bytes) : Option (Nat × CNetMessage) :=
  if !msg.in_data then msg.readHeader pch else some (msg.readData pch)

end CNetMessage

/-- How `ReceiveMsgBytes` ends. -/
inductive Received where
  /-- `return true` -/
  | accepted (vRecvMsg : List CNetMessage)
  /-- `return false` -/
  | rejected (vRecvMsg : List CNetMessage)
  /-- The fuel of the model is used up. -/
  | outOfFuel

/-- `vRecvMsg` with an incomplete message at its back, and the messages before that one. -/
def openMessage (vRecvMsg : List CNetMessage) : List CNetMessage × CNetMessage :=
  match vRecvMsg.getLast? with
  | none => ([], .new)
  | some back => if back.complete then (vRecvMsg, .new) else (vRecvMsg.dropLast, back)

/-- The loop of `CNode::ReceiveMsgBytes`. The fuel is the number of bytes: every round handles one or more. -/
def receiveLoop : Nat → List CNetMessage → Bytes → Received
  | _, vRecvMsg, [] => .accepted vRecvMsg
  | 0, _, _ :: _ => .outOfFuel
  | fuel + 1, vRecvMsg, pch =>
      match (openMessage vRecvMsg).2.absorb pch with
      | none => .rejected ((openMessage vRecvMsg).1 ++ [(openMessage vRecvMsg).2])
      | some (handled, msg) => receiveLoop fuel ((openMessage vRecvMsg).1 ++ [msg]) (pch.drop handled)

/-- `CNode::ReceiveMsgBytes`. -/
def receiveMsgBytes (vRecvMsg : List CNetMessage) (pch : Bytes) : Received := receiveLoop pch.length vRecvMsg pch

/-- The messages that `ProcessMessages` takes from the front in a number of rounds, and what it leaves. It
stops at a message that is not complete. -/
def processMessages : Nat → List CNetMessage → List CNetMessage × List CNetMessage
  | 0, vRecvMsg => ([], vRecvMsg)
  | _ + 1, [] => ([], [])
  | rounds + 1, msg :: rest =>
      if !msg.complete then ([], msg :: rest)
      else (msg :: (processMessages rounds rest).1, (processMessages rounds rest).2)

/-- What happens to a connection: a chunk arrives, or the message handler runs for a number of rounds. -/
inductive NetEvent where
  | chunk (pch : Bytes)
  | process (rounds : Nat)

/-- The receiving side of a connection: the messages taken by the handler, the queue, and whether
`ReceiveMsgBytes` has returned false, after which the socket is closed. -/
structure NetState where
  processed : List CNetMessage
  vRecvMsg : List CNetMessage
  closed : Bool

namespace NetState

def start : NetState := ⟨[], [], false⟩

/-- One event; `none` where a loop has not ended. -/
def next (s : NetState) : NetEvent → Option NetState
  | .chunk pch =>
      if s.closed then some s
      else
        match receiveMsgBytes s.vRecvMsg pch with
        | .accepted vRecvMsg => some { s with vRecvMsg := vRecvMsg }
        | .rejected vRecvMsg => some { s with vRecvMsg := vRecvMsg, closed := true }
        | .outOfFuel => none
  | .process rounds =>
      if s.closed then some s
      else
        let (taken, left) := processMessages rounds s.vRecvMsg
        some { s with processed := s.processed ++ taken, vRecvMsg := left }

def run : NetState → List NetEvent → Option NetState
  | s, [] => some s
  | s, event :: events => (s.next event).bind fun after => run after events

/-- The messages that have been completed, in order. -/
def completed (s : NetState) : List CNetMessage := s.processed ++ s.vRecvMsg.filter CNetMessage.complete

end NetState

/-- The bytes of the chunks. -/
def stream : List NetEvent → Bytes
  | [] => []
  | .chunk pch :: events => pch ++ stream events
  | .process _ :: events => stream events

/-! ## A receiver of single bytes -/

/-- What the receiver is in the middle of. -/
inductive Unfinished where
  | header (bytes : Bytes)
  | data (hdr : CMessageHeader) (payload : Bytes)
  | refused
deriving DecidableEq

/-- The messages so far and what is pending. -/
structure Framing where
  completed : List (CMessageHeader × Bytes)
  pending : Unfinished

namespace Framing

/-- A message with this much payload: it is finished, or more has to come. -/
def fill (completed : List (CMessageHeader × Bytes)) (hdr : CMessageHeader) (payload : Bytes) : Framing :=
  if payload.length < hdr.nMessageSize.toNat then ⟨completed, .data hdr payload⟩
  else ⟨completed ++ [(hdr, payload)], .header []⟩

/-- A header with this many bytes. -/
def fillHeader (completed : List (CMessageHeader × Bytes)) (bytes : Bytes) : Framing :=
  if bytes.length < headerSize then ⟨completed, .header bytes⟩
  else if maxSize < (ofBytes bytes).nMessageSize.toNat then ⟨completed, .refused⟩
  else fill completed (ofBytes bytes) []

/-- The next byte. -/
def step (f : Framing) (byte : UInt8) : Framing :=
  match f.pending with
  | .header bytes => fillHeader f.completed (bytes ++ [byte])
  | .data hdr payload => fill f.completed hdr (payload ++ [byte])
  | .refused => f

def feed (f : Framing) (bytes : Bytes) : Framing := bytes.foldl step f

theorem feed_append (f : Framing) (first second : Bytes) : f.feed (first ++ second) = (f.feed first).feed second :=
  List.foldl_append

theorem feed_refused (completed : List (CMessageHeader × Bytes)) (bytes : Bytes) :
    feed ⟨completed, .refused⟩ bytes = ⟨completed, .refused⟩ := by
  induction bytes with
  | nil => rfl
  | cons byte rest ih => exact ih

/-- Bytes of a header that does not end before they do. -/
theorem feed_header {completed : List (CMessageHeader × Bytes)} {bytes more : Bytes}
    (started : bytes.length < headerSize) (fits : bytes.length + more.length ≤ headerSize) :
    feed ⟨completed, .header bytes⟩ more = fillHeader completed (bytes ++ more) := by
  induction more generalizing bytes with
  | nil => rw [List.append_nil, fillHeader, if_pos started]; rfl
  | cons byte rest ih =>
      rw [List.length_cons] at fits
      change feed (fillHeader completed (bytes ++ [byte])) rest = _
      cases rest with
      | nil => rfl
      | cons next rest =>
          rw [List.length_cons] at fits
          have short : (bytes ++ [byte]).length < headerSize := by simp; omega
          rw [fillHeader, if_pos short, ih short (by simp; omega), List.append_assoc]
          rfl

/-- Payload bytes of a message that does not end before they do. -/
theorem feed_data {completed : List (CMessageHeader × Bytes)} {hdr : CMessageHeader} {payload more : Bytes}
    (started : payload.length < hdr.nMessageSize.toNat)
    (fits : payload.length + more.length ≤ hdr.nMessageSize.toNat) :
    feed ⟨completed, .data hdr payload⟩ more = fill completed hdr (payload ++ more) := by
  induction more generalizing payload with
  | nil => rw [List.append_nil, fill, if_pos started]; rfl
  | cons byte rest ih =>
      rw [List.length_cons] at fits
      change feed (fill completed hdr (payload ++ [byte])) rest = _
      cases rest with
      | nil => rfl
      | cons next rest =>
          rw [List.length_cons] at fits
          have short : (payload ++ [byte]).length < hdr.nMessageSize.toNat := by simp; omega
          rw [fill, if_pos short, ih short (by simp; omega), List.append_assoc]
          rfl

/-- The bytes of messages. -/
def spelled (completed : List (CMessageHeader × Bytes)) : Bytes :=
  completed.flatMap fun message => message.1.serialize ++ message.2

/-- What is left of a stream behind the completed messages. -/
def Unfinished.Left : Unfinished → Bytes → Prop
  | .header bytes, rest => rest = bytes ∧ bytes.length < headerSize
  | .data hdr payload, rest => rest = hdr.serialize ++ payload ∧ payload.length < hdr.nMessageSize.toNat ∧ hdr.Read
  | .refused, rest => headerSize ≤ rest.length ∧ maxSize < (ofBytes (rest.take headerSize)).nMessageSize.toNat

/-- The receiver has found these messages in the stream. -/
structure Spells (f : Framing) (bytes : Bytes) : Prop where
  sizes : ∀ message ∈ f.completed, message.2.length = message.1.nMessageSize.toNat
  left : ∃ rest, bytes = spelled f.completed ++ rest ∧ Unfinished.Left f.pending rest

theorem fill_spells {completed : List (CMessageHeader × Bytes)} {hdr : CMessageHeader} {payload bytes : Bytes}
    (sizes : ∀ message ∈ completed, message.2.length = message.1.nMessageSize.toNat)
    (fits : payload.length ≤ hdr.nMessageSize.toNat) (read : hdr.Read)
    (shape : bytes = spelled completed ++ (hdr.serialize ++ payload)) : Spells (fill completed hdr payload) bytes := by
  unfold fill
  by_cases short : payload.length < hdr.nMessageSize.toNat
  · rw [if_pos short]
    exact ⟨sizes, _, shape, rfl, short, read⟩
  · rw [if_neg short]
    refine ⟨fun message member => ?_, [], ?_, rfl, by decide⟩
    · rcases List.mem_append.mp member with old | own
      · exact sizes message old
      · obtain rfl := List.mem_singleton.mp own
        exact Nat.le_antisymm fits (Nat.le_of_not_lt short)
    · simp [shape, spelled]

theorem step_spells {f : Framing} {bytes : Bytes} (spells : Spells f bytes) (byte : UInt8) :
    Spells (f.step byte) (bytes ++ [byte]) := by
  obtain ⟨completed, pending⟩ := f
  obtain ⟨sizes, rest, shape, left⟩ := spells
  cases pending with
  | header known =>
      obtain ⟨rfl, started⟩ := left
      change Spells (fillHeader completed (rest ++ [byte])) _
      have longer : (rest ++ [byte]).length = rest.length + 1 := List.length_append
      unfold fillHeader
      by_cases short : (rest ++ [byte]).length < headerSize
      · rw [if_pos short]
        exact ⟨sizes, rest ++ [byte], by rw [shape, List.append_assoc], rfl, short⟩
      · have full : (rest ++ [byte]).length = headerSize := by omega
        rw [if_neg short]
        by_cases large : maxSize < (ofBytes (rest ++ [byte])).nMessageSize.toNat
        · rw [if_pos large]
          refine ⟨sizes, rest ++ [byte], by rw [shape, List.append_assoc], full.ge, ?_⟩
          rwa [← full, List.take_length]
        · rw [if_neg large]
          refine fill_spells sizes (Nat.zero_le _) (read_ofBytes full) ?_
          rw [serialize_ofBytes full, shape, List.append_nil, List.append_assoc]
  | data hdr payload =>
      obtain ⟨rfl, more, read⟩ := left
      refine fill_spells sizes ?_ read ?_
      · rw [List.length_append]
        exact more
      · simp only [shape, List.append_assoc]
  | refused =>
      refine ⟨sizes, rest ++ [byte], by rw [shape, List.append_assoc]; rfl, ?_, ?_⟩
      · rw [List.length_append]
        exact Nat.le_add_right_of_le left.1
      · rw [List.take_append_of_le_length left.1]
        exact left.2

theorem feed_spells {f : Framing} {known bytes : Bytes} (spells : Spells f known) :
    Spells (f.feed bytes) (known ++ bytes) := by
  induction bytes generalizing f known with
  | nil => rwa [List.append_nil]
  | cons byte rest ih =>
      rw [List.append_cons]
      exact ih (step_spells spells byte)

/-- Nothing has been received. -/
def empty : Framing := ⟨[], .header []⟩

theorem empty_spells : Spells empty [] := ⟨fun _ member => (nomatch member), [], rfl, rfl, by decide⟩

end Framing

/-! ## The code receives the same messages -/

namespace CNetMessage

/-- Header and payload. -/
def content (msg : CNetMessage) : CMessageHeader × Bytes := (msg.hdr, msg.vRecv)

/-- A message that is being received. -/
structure Receiving (msg : CNetMessage) : Prop where
  header : msg.in_data = false → msg.nHdrPos < headerSize ∧ msg.hdrbuf.length = headerSize ∧ msg.vRecv = [] ∧ msg.nDataPos = 0
  data : msg.in_data = true → msg.hdr.Shaped ∧ msg.nDataPos ≤ msg.vRecv.length ∧
    msg.vRecv.length ≤ msg.hdr.nMessageSize.toNat

/-- What is known of the next message: its header bytes, or its payload. -/
def pending (msg : CNetMessage) : Unfinished :=
  if msg.in_data then .data msg.hdr (msg.vRecv.take msg.nDataPos) else .header (msg.hdrbuf.take msg.nHdrPos)

theorem new_receiving : new.Receiving :=
  ⟨fun _ => ⟨by decide, by decide, rfl, rfl⟩, fun inData => nomatch inData⟩

/-- The abstract receiver with this message at the back of its queue. -/
def framing (front : List (CMessageHeader × Bytes)) (msg : CNetMessage) : Framing :=
  if msg.complete then ⟨front ++ [msg.content], .header []⟩ else ⟨front, msg.pending⟩

/-- A message whose payload has these bytes. -/
theorem framing_of_data {msg : CNetMessage} (front : List (CMessageHeader × Bytes)) (inData : msg.in_data = true)
    (receiving : msg.Receiving) :
    msg.framing front = Framing.fill front msg.hdr (msg.vRecv.take msg.nDataPos) := by
  obtain ⟨-, received, buffered⟩ := receiving.data inData
  have length : (msg.vRecv.take msg.nDataPos).length = msg.nDataPos := List.length_take_of_le received
  unfold framing Framing.fill
  rw [length]
  by_cases done : msg.hdr.nMessageSize.toNat = msg.nDataPos
  · have complete : msg.complete = true := by simp [CNetMessage.complete, inData, done]
    have whole : msg.vRecv.take msg.nDataPos = msg.vRecv := List.take_of_length_le (by omega)
    rw [if_pos complete, if_neg (by omega), whole]
    rfl
  · have incomplete : msg.complete = false := by simp [CNetMessage.complete, inData, done]
    rw [if_neg (by simp [incomplete]), if_pos (by omega), pending, if_pos inData]

theorem framing_of_header {msg : CNetMessage} (front : List (CMessageHeader × Bytes)) (inHeader : msg.in_data = false) :
    msg.framing front = ⟨front, .header (msg.hdrbuf.take msg.nHdrPos)⟩ := by
  have incomplete : msg.complete = false := by simp [complete, inHeader]
  rw [framing, if_neg (by simp [incomplete]), pending, if_neg (by simp [inHeader])]

theorem resize_take {buffer : Bytes} {position size : Nat} (kept : position ≤ buffer.length) (le : buffer.length ≤ size) :
    (resize buffer size).take position = buffer.take position := by
  rw [resize, List.take_of_length_le le, List.take_append_of_le_length kept]

theorem length_resize {buffer : Bytes} {size : Nat} (le : buffer.length ≤ size) : (resize buffer size).length = size := by
  simp only [resize, List.length_append, List.length_take, List.length_replicate]
  omega

/-- What one round of the loop does to the message at the back of the queue. -/
def Absorbs (front : List (CMessageHeader × Bytes)) (before : Framing) (pch : Bytes) :
    Option (Nat × CNetMessage) → Prop
  | none => before.feed pch = ⟨front, .refused⟩
  | some (handled, msg) => 0 < handled ∧ msg.Receiving ∧ before.feed (pch.take handled) = msg.framing front

theorem readHeader_absorbs {msg : CNetMessage} (front : List (CMessageHeader × Bytes)) (receiving : msg.Receiving)
    (inHeader : msg.in_data = false) {pch : Bytes} (nonempty : pch ≠ []) :
    Absorbs front (msg.framing front) pch (msg.readHeader pch) := by
  obtain ⟨started, buffer, empty, atStart⟩ := receiving.header inHeader
  have arrived : 0 < pch.length := List.length_pos_iff.mpr nonempty
  have known : (msg.hdrbuf.take msg.nHdrPos).length = msg.nHdrPos := List.length_take_of_le (by omega)
  rw [framing_of_header front inHeader]
  unfold readHeader
  dsimp only
  obtain ⟨nCopy, copy⟩ : ∃ nCopy, min (headerSize - msg.nHdrPos) pch.length = nCopy := ⟨_, rfl⟩
  rw [copy]
  have copied : (pch.take nCopy).length = nCopy := List.length_take_of_le (by omega)
  have fed := @Framing.feed_header front (msg.hdrbuf.take msg.nHdrPos) (pch.take nCopy) (by omega) (by omega)
  have filled := @take_overwrite msg.hdrbuf (pch.take nCopy) msg.nHdrPos (by omega)
  have length := @length_overwrite msg.hdrbuf (pch.take nCopy) msg.nHdrPos (by omega)
  rw [copied] at filled
  rw [← filled] at fed
  generalize overwrite msg.hdrbuf msg.nHdrPos (pch.take nCopy) = hdrbuf at fed length ⊢
  have full : hdrbuf.length = headerSize := length.trans buffer
  unfold Framing.fillHeader at fed
  by_cases short : msg.nHdrPos + nCopy < headerSize
  · rw [if_pos short]
    rw [if_pos (by rw [List.length_take]; omega)] at fed
    refine ⟨by omega, ⟨fun _ => ⟨short, full, empty, atStart⟩, fun inData => ?_⟩, ?_⟩
    · cases inHeader.symm.trans inData
    · exact fed.trans (@framing_of_header ⟨msg.in_data, hdrbuf, msg.hdr, msg.nHdrPos + nCopy, msg.vRecv, msg.nDataPos⟩
        front inHeader).symm
  · obtain ⟨after, read⟩ := unserialize_ofBytes full
    have whole : hdrbuf.take (msg.nHdrPos + nCopy) = hdrbuf := List.take_of_length_le (by omega)
    rw [whole, if_neg (by omega)] at fed
    rw [if_neg short]
    simp only [read]
    by_cases large : maxSize < (ofBytes hdrbuf).nMessageSize.toNat
    · rw [if_pos large] at fed ⊢
      change Framing.feed _ pch = _
      rw [← List.take_append_drop nCopy pch, Framing.feed_append, fed, Framing.feed_refused]
    · rw [if_neg large] at fed ⊢
      have data : Receiving ⟨true, [], ofBytes hdrbuf, msg.nHdrPos + nCopy, msg.vRecv, msg.nDataPos⟩ := by
        refine ⟨fun inHeader => (nomatch inHeader), fun _ => ⟨shaped_ofBytes full, ?_, ?_⟩⟩
        · rw [atStart]
          exact Nat.zero_le _
        · rw [empty]
          exact Nat.zero_le _
      refine ⟨by omega, data, fed.trans ?_⟩
      rw [framing_of_data front rfl data, empty, List.take_nil]

theorem readData_absorbs {msg : CNetMessage} (front : List (CMessageHeader × Bytes)) (receiving : msg.Receiving)
    (inData : msg.in_data = true) (incomplete : msg.complete = false) {pch : Bytes} (nonempty : pch ≠ []) :
    Absorbs front (msg.framing front) pch (some (msg.readData pch)) := by
  obtain ⟨shaped, received, buffered⟩ := receiving.data inData
  have more : msg.nDataPos < msg.hdr.nMessageSize.toNat := by
    have differ : msg.hdr.nMessageSize.toNat ≠ msg.nDataPos := by simpa [complete, inData] using incomplete
    omega
  have arrived : 0 < pch.length := List.length_pos_iff.mpr nonempty
  have known : (msg.vRecv.take msg.nDataPos).length = msg.nDataPos := List.length_take_of_le received
  rw [framing_of_data front inData receiving, Framing.fill, if_pos (by omega)]
  unfold readData
  dsimp only
  obtain ⟨nCopy, copy⟩ : ∃ nCopy, min (msg.hdr.nMessageSize.toNat - msg.nDataPos) pch.length = nCopy := ⟨_, rfl⟩
  rw [copy]
  have copied : (pch.take nCopy).length = nCopy := List.length_take_of_le (by omega)
  have fed := @Framing.feed_data front msg.hdr (msg.vRecv.take msg.nDataPos) (pch.take nCopy) (by omega) (by omega)
  -- The buffer may grow further than the bytes that are there, but never beyond the message.
  obtain ⟨vRecv, grown⟩ : ∃ vRecv, (if msg.vRecv.length < msg.nDataPos + nCopy then
      resize msg.vRecv (min msg.hdr.nMessageSize.toNat (msg.nDataPos + nCopy + 256 * 1024)) else msg.vRecv) = vRecv :=
    ⟨_, rfl⟩
  have room : msg.nDataPos + nCopy ≤ vRecv.length ∧ vRecv.length ≤ msg.hdr.nMessageSize.toNat ∧
      vRecv.take msg.nDataPos = msg.vRecv.take msg.nDataPos := by
    rw [← grown]
    split
    · rw [length_resize (by omega), resize_take received (by omega)]
      exact ⟨by omega, by omega, rfl⟩
    · exact ⟨by omega, buffered, rfl⟩
  rw [grown]
  have filled := @take_overwrite vRecv (pch.take nCopy) msg.nDataPos (by omega)
  have length := @length_overwrite vRecv (pch.take nCopy) msg.nDataPos (by omega)
  rw [copied, room.2.2] at filled
  have data : Receiving { msg with vRecv := overwrite vRecv msg.nDataPos (pch.take nCopy), nDataPos := msg.nDataPos + nCopy } := by
    refine ⟨fun inHeader => ?_, fun _ => ⟨shaped, ?_, ?_⟩⟩
    · cases inHeader.symm.trans inData
    · exact room.1.trans_eq length.symm
    · exact length.trans_le room.2.1
  refine ⟨by omega, data, ?_⟩
  rw [framing_of_data front (by exact inData) data, fed, filled]

theorem absorb_absorbs {msg : CNetMessage} (front : List (CMessageHeader × Bytes)) (receiving : msg.Receiving)
    (incomplete : msg.complete = false) {pch : Bytes} (nonempty : pch ≠ []) :
    Absorbs front (msg.framing front) pch (msg.absorb pch) := by
  unfold absorb
  cases inData : msg.in_data with
  | false => exact readHeader_absorbs front receiving inData nonempty
  | true => exact readData_absorbs front receiving inData incomplete nonempty

end CNetMessage

namespace NetState

open CNetMessage

/-- Every message but the last is complete, and all of them are well formed. -/
structure Sound (vRecvMsg : List CNetMessage) : Prop where
  receiving : ∀ msg ∈ vRecvMsg, msg.Receiving
  front : ∀ msg ∈ vRecvMsg.dropLast, msg.complete = true

/-- The abstract receiver for a queue, with the messages that have left it. -/
def framing (before : List (CMessageHeader × Bytes)) (vRecvMsg : List CNetMessage) : Framing :=
  (openMessage vRecvMsg).2.framing (before ++ (openMessage vRecvMsg).1.map content)

theorem openMessage_append (front : List CNetMessage) (msg : CNetMessage) :
    openMessage (front ++ [msg]) = if msg.complete then (front ++ [msg], .new) else (front, msg) := by
  simp [openMessage]

theorem framing_append (before : List (CMessageHeader × Bytes)) (front : List CNetMessage) (msg : CNetMessage) :
    framing before (front ++ [msg]) = msg.framing (before ++ front.map content) := by
  unfold framing
  rw [openMessage_append]
  cases complete : msg.complete with
  | true =>
      rw [if_pos rfl, CNetMessage.framing_of_header _ rfl]
      simp [CNetMessage.framing, complete, CNetMessage.new]
  | false => rfl

theorem framing_nil (before : List (CMessageHeader × Bytes)) : framing before [] = ⟨before, .header []⟩ := by
  change CNetMessage.new.framing (before ++ []) = _
  rw [CNetMessage.framing_of_header _ rfl, List.append_nil]
  rfl

/-- What `openMessage` finds in a sound queue. -/
theorem Sound.open {vRecvMsg : List CNetMessage} (sound : Sound vRecvMsg) :
    (openMessage vRecvMsg).2.Receiving ∧ (openMessage vRecvMsg).2.complete = false ∧
      (∀ msg ∈ (openMessage vRecvMsg).1, msg.Receiving ∧ msg.complete = true) := by
  rcases List.eq_nil_or_concat vRecvMsg with rfl | ⟨front, msg, rfl⟩
  · exact ⟨new_receiving, rfl, fun _ member => (nomatch member)⟩
  · rw [List.concat_eq_append] at sound ⊢
    rw [openMessage_append]
    have earlier : ∀ other ∈ front, other.Receiving ∧ other.complete = true := fun other member =>
      ⟨sound.receiving other (List.mem_append_left _ member),
        sound.front other (by rwa [List.dropLast_concat])⟩
    have last := sound.receiving msg (List.mem_append_right _ (List.mem_singleton_self msg))
    cases complete : msg.complete with
    | true =>
        refine ⟨new_receiving, rfl, fun other member => ?_⟩
        rcases List.mem_append.mp member with old | own
        · exact earlier other old
        · obtain rfl := List.mem_singleton.mp own
          exact ⟨last, complete⟩
    | false => exact ⟨last, complete, earlier⟩

theorem Sound.append {front : List CNetMessage} {msg : CNetMessage}
    (earlier : ∀ other ∈ front, other.Receiving ∧ other.complete = true) (receiving : msg.Receiving) :
    Sound (front ++ [msg]) := by
  refine ⟨fun other member => ?_, fun other member => ?_⟩
  · rcases List.mem_append.mp member with old | own
    · exact (earlier other old).1
    · obtain rfl := List.mem_singleton.mp own
      exact receiving
  · rw [List.dropLast_concat] at member
    exact (earlier other member).2

/-- What `ReceiveMsgBytes` leaves for a sequence of bytes. -/
def Receives (before : List (CMessageHeader × Bytes)) (final : Framing) : Received → Prop
  | .accepted vRecvMsg => Sound vRecvMsg ∧ framing before vRecvMsg = final
  | .rejected vRecvMsg => Sound vRecvMsg ∧ final = ⟨before ++ (vRecvMsg.filter complete).map content, .refused⟩
  | .outOfFuel => False

/-- The loop ends, and receives what the abstract receiver does. -/
theorem receiveLoop_receives (before : List (CMessageHeader × Bytes)) {fuel : Nat} {vRecvMsg : List CNetMessage}
    {pch : Bytes} (enough : pch.length ≤ fuel) (sound : Sound vRecvMsg) :
    Receives before ((framing before vRecvMsg).feed pch) (receiveLoop fuel vRecvMsg pch) := by
  induction fuel generalizing vRecvMsg pch with
  | zero =>
      obtain rfl : pch = [] := List.length_eq_zero_iff.mp (Nat.le_zero.mp enough)
      exact ⟨sound, rfl⟩
  | succ fuel ih =>
      cases pch with
      | nil => exact ⟨sound, rfl⟩
      | cons byte rest =>
          obtain ⟨receiving, incomplete, earlier⟩ := sound.open
          have absorbed := absorb_absorbs (before ++ (openMessage vRecvMsg).1.map content) receiving incomplete
            (List.cons_ne_nil byte rest)
          change Absorbs _ (framing before vRecvMsg) _ _ at absorbed
          unfold receiveLoop
          cases result : (openMessage vRecvMsg).2.absorb (byte :: rest) with
          | none =>
              rw [result] at absorbed
              dsimp only
              refine ⟨.append earlier receiving, absorbed.trans ?_⟩
              have all : (openMessage vRecvMsg).1.filter complete = (openMessage vRecvMsg).1 :=
                List.filter_eq_self.mpr fun msg member => (earlier msg member).2
              rw [List.filter_append, all, List.filter_cons_of_neg (by simp [incomplete]), List.filter_nil,
                List.append_nil]
          | some outcome =>
              obtain ⟨handled, msg⟩ := outcome
              rw [result] at absorbed
              obtain ⟨positive, nextReceiving, fed⟩ := absorbed
              have shorter : ((byte :: rest).drop handled).length ≤ fuel := by
                rw [List.length_drop]
                simp only [List.length_cons] at enough ⊢
                omega
              have tail := ih shorter (.append earlier nextReceiving)
              rw [framing_append, ← fed, ← Framing.feed_append, List.take_append_drop] at tail
              exact tail

theorem framing_cons (before : List (CMessageHeader × Bytes)) {msg : CNetMessage} (rest : List CNetMessage)
    (complete : msg.complete = true) : framing before (msg :: rest) = framing (before ++ [msg.content]) rest := by
  rcases List.eq_nil_or_concat rest with rfl | ⟨front, last, rfl⟩
  · rw [framing_nil]
    refine (framing_append before [] msg).trans ?_
    simp [CNetMessage.framing, complete]
  · rw [List.concat_eq_append, ← List.cons_append, framing_append, framing_append]
    simp

theorem Sound.tail {msg : CNetMessage} {rest : List CNetMessage} (sound : Sound (msg :: rest)) : Sound rest := by
  refine ⟨fun other member => sound.receiving other (List.mem_cons_of_mem msg member), fun other member => ?_⟩
  cases rest with
  | nil => cases member
  | cons next rest => exact sound.front other (List.mem_cons_of_mem msg member)

/-- The handler takes complete messages, and the receiver does not notice. -/
theorem processMessages_framing (before : List (CMessageHeader × Bytes)) (rounds : Nat) {vRecvMsg : List CNetMessage}
    (sound : Sound vRecvMsg) :
    Sound (processMessages rounds vRecvMsg).2 ∧ (∀ msg ∈ (processMessages rounds vRecvMsg).1, msg.complete = true) ∧
      framing (before ++ (processMessages rounds vRecvMsg).1.map content) (processMessages rounds vRecvMsg).2 =
        framing before vRecvMsg := by
  have stays : ∀ (before : List (CMessageHeader × Bytes)) {v : List CNetMessage}, Sound v →
      Sound v ∧ (∀ msg ∈ ([] : List CNetMessage), msg.complete = true) ∧
        framing (before ++ ([] : List CNetMessage).map content) v = framing before v :=
    fun before _ here => ⟨here, List.forall_mem_nil _, by rw [List.map_nil, List.append_nil]⟩
  induction rounds generalizing before vRecvMsg with
  | zero => exact stays before sound
  | succ rounds ih =>
      cases vRecvMsg with
      | nil => exact stays before sound
      | cons msg rest =>
          unfold processMessages
          cases complete : msg.complete with
          | false => exact stays before sound
          | true =>
              obtain ⟨left, taken, same⟩ := ih (before ++ [msg.content]) sound.tail
              refine ⟨left, List.forall_mem_cons.mpr ⟨complete, taken⟩, ?_⟩
              rw [framing_cons before rest complete, ← same]
              simp

theorem framing_completed (before : List (CMessageHeader × Bytes)) {vRecvMsg : List CNetMessage}
    (sound : Sound vRecvMsg) :
    (framing before vRecvMsg).completed = before ++ (vRecvMsg.filter complete).map content ∧
      (framing before vRecvMsg).pending ≠ .refused := by
  rcases List.eq_nil_or_concat vRecvMsg with rfl | ⟨front, msg, rfl⟩
  · rw [framing_nil]
    exact ⟨(List.append_nil before).symm, nofun⟩
  · rw [List.concat_eq_append] at sound ⊢
    have all : front.filter complete = front :=
      List.filter_eq_self.mpr fun other member => sound.front other (by rwa [List.dropLast_concat])
    rw [framing_append, List.filter_append, all]
    cases finished : msg.complete with
    | true => simp [CNetMessage.framing, finished]
    | false =>
        refine ⟨by simp [CNetMessage.framing, finished], ?_⟩
        rw [CNetMessage.framing, if_neg (by simp [finished]), CNetMessage.pending]
        split <;> nofun

/-- The connection has received what the abstract receiver has. -/
structure Tracks (s : NetState) (f : Framing) : Prop where
  sound : Sound s.vRecvMsg
  finished : ∀ msg ∈ s.processed, msg.complete = true
  running : s.closed = false → framing (s.processed.map content) s.vRecvMsg = f
  refused : s.closed = true → f = ⟨s.completed.map content, .refused⟩

theorem start_tracks : Tracks start .empty :=
  ⟨⟨fun _ member => (nomatch member), fun _ member => (nomatch member)⟩, fun _ member => (nomatch member),
    fun _ => framing_nil [], fun closed => (nomatch closed)⟩

/-- The bytes that an event brings. -/
def arriving : NetEvent → Bytes
  | .chunk pch => pch
  | .process _ => []

theorem Tracks.next {s : NetState} {f : Framing} (tracks : Tracks s f) (event : NetEvent) :
    ∃ after, s.next event = some after ∧ Tracks after (f.feed (arriving event)) := by
  cases closed : s.closed with
  | true =>
      refine ⟨s, ?_, ?_⟩
      · cases event <;> exact if_pos closed
      · rw [tracks.refused closed, Framing.feed_refused]
        exact ⟨tracks.sound, tracks.finished, fun opened => (nomatch closed.symm.trans opened), fun _ => rfl⟩
  | false =>
      have here := tracks.running closed
      cases event with
      | chunk pch =>
          have received := receiveLoop_receives (s.processed.map content) (le_refl pch.length) tracks.sound
          rw [here] at received
          unfold NetState.next receiveMsgBytes
          cases result : receiveLoop pch.length s.vRecvMsg pch with
          | accepted vRecvMsg =>
              rw [result] at received
              refine ⟨{ s with vRecvMsg := vRecvMsg }, by simp [closed, result],
                received.1, tracks.finished, fun _ => received.2, fun refused => ?_⟩
              cases closed.symm.trans refused
          | rejected vRecvMsg =>
              rw [result] at received
              refine ⟨{ s with vRecvMsg := vRecvMsg, closed := true }, by simp [closed, result],
                received.1, tracks.finished, fun running => (nomatch running), fun _ => ?_⟩
              rw [completed, List.map_append]
              exact received.2
          | outOfFuel =>
              rw [result] at received
              exact received.elim
      | process rounds =>
          obtain ⟨left, taken, same⟩ := processMessages_framing (s.processed.map content) rounds tracks.sound
          refine ⟨_, if_neg (by simp [closed]), left, ?_, fun _ => ?_, fun refused => ?_⟩
          · intro msg member
            rcases List.mem_append.mp member with old | new
            · exact tracks.finished msg old
            · exact taken msg new
          · rw [List.map_append, same]
            exact here
          · cases closed.symm.trans refused

theorem Tracks.run {s : NetState} {f : Framing} (tracks : Tracks s f) (events : List NetEvent) :
    ∃ after, s.run events = some after ∧ Tracks after (f.feed (stream events)) := by
  induction events generalizing s f with
  | nil => exact ⟨s, rfl, tracks⟩
  | cons event events ih =>
      obtain ⟨middle, done, tracked⟩ := tracks.next event
      obtain ⟨after, rest, final⟩ := ih tracked
      refine ⟨after, by rw [NetState.run, done]; exact rest, ?_⟩
      rw [← Framing.feed_append] at final
      cases event <;> exact final

/-- What a connection shows of the abstract receiver. -/
theorem Tracks.completed_eq {s : NetState} {f : Framing} (tracks : Tracks s f) :
    s.completed.map content = f.completed ∧ (s.closed = true ↔ f.pending = .refused) := by
  cases closed : s.closed with
  | true =>
      rw [tracks.refused closed]
      exact ⟨rfl, fun _ => rfl, fun _ => rfl⟩
  | false =>
      obtain ⟨messages, open_⟩ := framing_completed (s.processed.map content) tracks.sound
      rw [tracks.running closed] at messages open_
      refine ⟨?_, fun refused => (nomatch refused), fun refused => absurd refused open_⟩
      rw [messages, completed, List.map_append]

end NetState

open CNetMessage in
/-- However a stream is cut into chunks and whenever the handler takes messages, every loop ends, and the messages
completed are those of the whole stream given at once. They are the bytes of the stream, each payload
as long as its header says. The connection is closed in both cases or in neither; where it is, the next header
announces more than `MAX_SIZE`, and where it is not, the next message is unfinished. -/
theorem framing_chunk_independent (events : List NetEvent) :
    ∃ s whole, NetState.start.run events = some s ∧ NetState.start.run [.chunk (stream events)] = some whole ∧
      s.completed.map content = whole.completed.map content ∧ s.closed = whole.closed ∧
      (∀ msg ∈ s.completed, msg.vRecv.length = msg.hdr.nMessageSize.toNat) ∧
      ∃ rest, stream events = s.completed.flatMap (fun msg => msg.hdr.serialize ++ msg.vRecv) ++ rest ∧
        (s.closed = true → headerSize ≤ rest.length ∧
          maxSize < (ofBytes (rest.take headerSize)).nMessageSize.toNat) ∧
        (s.closed = false → rest.length < headerSize ∨
          rest.length < headerSize + (ofBytes (rest.take headerSize)).nMessageSize.toNat) := by
  obtain ⟨s, done, tracks⟩ := NetState.start_tracks.run events
  obtain ⟨whole, wholeDone, wholeTracks⟩ := NetState.start_tracks.run [.chunk (stream events)]
  have sameStream : stream [.chunk (stream events)] = stream events := List.append_nil _
  rw [sameStream] at wholeTracks
  obtain ⟨messages, refused⟩ := tracks.completed_eq
  obtain ⟨wholeMessages, wholeRefused⟩ := wholeTracks.completed_eq
  obtain ⟨sizes, rest, shape, left⟩ := @Framing.feed_spells _ _ (stream events) Framing.empty_spells
  rw [← messages] at sizes shape
  refine ⟨s, whole, done, wholeDone, messages.trans wholeMessages.symm, ?_, ?_, rest, ?_, ?_, ?_⟩
  · rw [Bool.eq_iff_iff, refused, wholeRefused]
  · exact fun msg member => sizes msg.content (List.mem_map_of_mem member)
  · rw [List.nil_append, Framing.spelled, List.flatMap_map] at shape
    exact shape
  · intro closed
    rw [refused.mp closed] at left
    exact left
  · intro running
    have notRefused : (Framing.empty.feed (stream events)).pending ≠ .refused := by
      rw [Ne, ← refused, running]
      exact Bool.false_ne_true
    cases pending : (Framing.empty.feed (stream events)).pending with
    | header bytes =>
        rw [pending] at left
        obtain ⟨rfl, short⟩ := left
        exact Or.inl short
    | data hdr payload =>
        rw [pending] at left
        obtain ⟨rfl, short, length, same⟩ := left
        right
        rw [← length, List.take_left, same, List.length_append]
        exact Nat.add_lt_add_left short _
    | refused => exact absurd pending notRefused

end InfiniteRicks
