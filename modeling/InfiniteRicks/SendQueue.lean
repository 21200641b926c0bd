import InfiniteRicks.NetMessage

/-!
# The send queue

`BeginMessage`, `EndMessage` and `SocketSendData` (`net.h`, `net.cpp`). The queue holds
whole messages and an offset into the first; what the socket takes in each call of
`send` is up to the environment. The bytes that the socket has taken, which the source
does not keep, are part of the state here.
-/

namespace InfiniteRicks

/-- The sending side of a `CNode`, with the bytes that `send` has accepted. -/
structure SendState where
  ssSend : Bytes
  vSendMsg : List Bytes
  nSendSize : Int
  nSendOffset : Nat
  accepted : Bytes

/-- What `send` does when it is called for the n-th time: `none` fails without closing the socket, and
`some k` takes `k` bytes, or all that are offered where `k` is more. -/
abbrev Socket := Nat → Option Nat

namespace SendState

def start : SendState := ⟨[], [], 0, 0, []⟩

/-- The loop of `SocketSendData` from the iterator on, for the `i`-th call of `send`. It gives the entries
that are left; `none` is a failed assertion. -/
def sendLoop (send : Socket) : Nat → List Bytes → SendState → Option (List Bytes × SendState)
  | _, [], s => some ([], s)
  | i, data :: rest, s =>
      if ¬ s.nSendOffset < data.length then none
      else
        match send i with
        | none => some (data :: rest, s)
        | some k =>
            let nBytes := min k (data.length - s.nSendOffset)
            if 0 < nBytes then
              let accepted := s.accepted ++ (data.drop s.nSendOffset).take nBytes
              if s.nSendOffset + nBytes = data.length then
                sendLoop send (i + 1) rest
                  { s with nSendOffset := 0, nSendSize := s.nSendSize - data.length, accepted := accepted }
              else some (data :: rest, { s with nSendOffset := s.nSendOffset + nBytes, accepted := accepted })
            else some (data :: rest, s)

/-- `SocketSendData`; `none` is a failed assertion. -/
def socketSendData (send : Socket) (s : SendState) : Option SendState :=
  match sendLoop send 0 s.vSendMsg s with
  | none => none
  | some (left, s) =>
      if left = [] ∧ (s.nSendOffset ≠ 0 ∨ s.nSendSize ≠ 0) then none else some { s with vSendMsg := left }

/-- `strncpy` into an array of the size. -/
def strncpy (source : Bytes) (size : Nat) : Bytes :=
  let text := (source.takeWhile (· ≠ 0)).take size
  text ++ List.replicate (size - text.length) 0

/-- `CNode::BeginMessage`; `none` is a failed assertion. -/
def beginMessage (pszCommand : Bytes) (s : SendState) : Option SendState :=
  if s.ssSend.length ≠ 0 then none
  else some { s with ssSend := s.ssSend ++ CMessageHeader.serialize ⟨pchMessageStart, strncpy pszCommand 12, 0, 0⟩ }

/-- `ssSend << data`. -/
def write (data : Bytes) (s : SendState) : SendState := { s with ssSend := s.ssSend ++ data }

/-- `CNode::AbortMessage`. -/
def abortMessage (s : SendState) : SendState := { s with ssSend := [] }

/-- The message with its size and its checksum. -/
def sealed (hash : Bytes → UInt256) (ssSend : Bytes) : Bytes :=
  let nSize := ssSend.length - CMessageHeader.headerSize
  let ssSend := overwrite ssSend 16 (littleEndianBytes 4 nSize)
  overwrite ssSend 20 (littleEndianBytes 4 (hash (ssSend.drop CMessageHeader.headerSize)).toNat)

/-- `CNode::EndMessage`; `drop` is the draw of `-dropmessagestest`. -/
def endMessage (hash : Bytes → UInt256) (drop : Bool) (send : Socket) (s : SendState) : Option SendState :=
  if drop then some s.abortMessage
  else if s.ssSend.length = 0 then some s
  else if s.ssSend.length < 20 + 4 then none
  else
    let data := sealed hash s.ssSend
    let queued := { s with ssSend := [], vSendMsg := s.vSendMsg ++ [data], nSendSize := s.nSendSize + data.length }
    if s.vSendMsg = [] then queued.socketSendData send else some queued

/-- `PushMessage`: the lock is held from `BeginMessage` to the end. -/
def pushMessage (hash : Bytes → UInt256) (pszCommand payload : Bytes) (drop : Bool) (send : Socket) (s : SendState) :
    Option SendState := do
  let s ← s.beginMessage pszCommand
  (s.write payload).endMessage hash drop send

end SendState

/-- What happens to the queue. -/
inductive SendEvent where
  /-- A message is queued, or dropped, and `EndMessage` may try to send it. -/
  | message (pszCommand payload : Bytes) (drop : Bool) (send : Socket)
  /-- A message is given up before its end. -/
  | abort (pszCommand payload : Bytes)
  /-- The socket thread sends. -/
  | socketSendData (send : Socket)

namespace SendState

def next (hash : Bytes → UInt256) (s : SendState) : SendEvent → Option SendState
  | .message pszCommand payload drop send => s.pushMessage hash pszCommand payload drop send
  | .abort pszCommand payload => (s.beginMessage pszCommand).map fun s => (s.write payload).abortMessage
  | .socketSendData send => s.socketSendData send

/-- A sequence of events; `none` is a failed assertion. -/
def run (hash : Bytes → UInt256) : SendState → List SendEvent → Option SendState
  | s, [] => some s
  | s, event :: events => (s.next hash event).bind fun after => run hash after events

/-- The unsent part of the queue. -/
def unsent (s : SendState) : Bytes := s.vSendMsg.flatten.drop s.nSendOffset

end SendState

/-- The message that an event queues. -/
def SendEvent.queued (hash : Bytes → UInt256) : SendEvent → Bytes
  | .message pszCommand payload drop _ =>
      if drop then []
      else SendState.sealed hash
        (CMessageHeader.serialize ⟨pchMessageStart, SendState.strncpy pszCommand 12, 0, 0⟩ ++ payload)
  | .abort _ _ => []
  | .socketSendData _ => []

namespace SendState

/-- The state of the queue after messages with these bytes. -/
structure Sound (queued : Bytes) (s : SendState) : Prop where
  idle : s.ssSend = []
  messages : ∀ data ∈ s.vSendMsg, data ≠ []
  offset : ∀ data ∈ s.vSendMsg.head?, s.nSendOffset < data.length
  empty : s.vSendMsg = [] → s.nSendOffset = 0
  size : s.nSendSize = (s.vSendMsg.map List.length).sum
  bytes : s.accepted ++ s.unsent = queued

/-- The loop keeps the queue sound from the iterator on. -/
theorem sendLoop_sound {queued : Bytes} (send : Socket) (i : Nat) {queue : List Bytes} {s : SendState}
    (sound : Sound queued { s with vSendMsg := queue }) :
    ∃ left after, sendLoop send i queue s = some (left, after) ∧ Sound queued { after with vSendMsg := left } := by
  obtain ⟨ssSend, vSendMsg, nSendSize, nSendOffset, accepted⟩ := s
  induction queue generalizing i nSendSize nSendOffset accepted with
  | nil => exact ⟨[], _, rfl, sound⟩
  | cons data rest ih =>
      have inside : nSendOffset < data.length := sound.offset data rfl
      unfold sendLoop
      simp only [inside, not_true_eq_false, if_false]
      cases send i with
      | none => exact ⟨_, _, rfl, sound⟩
      | some k =>
          dsimp only
          obtain ⟨nBytes, taken⟩ : ∃ nBytes, min k (data.length - nSendOffset) = nBytes := ⟨_, rfl⟩
          have bytes := sound.bytes
          simp only [unsent, List.flatten_cons] at bytes
          rw [List.drop_append_of_le_length inside.le] at bytes
          rw [taken]
          by_cases some_ : 0 < nBytes
          · rw [if_pos some_]
            by_cases whole : nSendOffset + nBytes = data.length
            · rw [if_pos whole]
              refine ih (i + 1) _ 0 _ ⟨sound.idle,
                fun other member => sound.messages other (List.mem_cons_of_mem data member), fun other first => ?_,
                fun _ => rfl, ?_, ?_⟩
              · have member := List.mem_cons_of_mem data (List.mem_of_mem_head? first)
                exact List.length_pos_iff.mpr (sound.messages other member)
              · have size := sound.size
                simp only [List.map_cons, List.sum_cons] at size ⊢
                push_cast at size ⊢
                omega
              · rw [List.take_of_length_le (by rw [List.length_drop]; omega)]
                simpa [unsent] using bytes
            · rw [if_neg whole]
              refine ⟨_, _, rfl, sound.idle, sound.messages, ?_, fun none => (nomatch none), sound.size, ?_⟩
              · rintro other ⟨⟩
                change nSendOffset + nBytes < data.length
                omega
              · have split : (data.drop nSendOffset).take nBytes ++ data.drop (nSendOffset + nBytes) = data.drop nSendOffset := by
                  rw [← List.drop_drop, List.take_append_drop]
                simp only [unsent, List.flatten_cons]
                rw [List.drop_append_of_le_length (by omega), List.append_assoc, ← List.append_assoc _ _ rest.flatten,
                  split]
                exact bytes
          · rw [if_neg some_]
            exact ⟨_, _, rfl, sound⟩

theorem socketSendData_sound {queued : Bytes} (send : Socket) {s : SendState} (sound : Sound queued s) :
    ∃ after, s.socketSendData send = some after ∧ Sound queued after := by
  obtain ⟨left, after, done, kept⟩ := sendLoop_sound send 0 sound
  have passes : ¬ (left = [] ∧ (after.nSendOffset ≠ 0 ∨ after.nSendSize ≠ 0)) := by
    rintro ⟨rfl, offset | size⟩
    · exact offset (kept.empty rfl)
    · exact size kept.size
  refine ⟨_, ?_, kept⟩
  simp only [socketSendData, done, passes, if_false]

theorem sealed_ne_nil {hash : Bytes → UInt256} {ssSend : Bytes} (long : 24 ≤ ssSend.length) :
    sealed hash ssSend ≠ [] := by
  have first : (overwrite ssSend 16 (littleEndianBytes 4 (ssSend.length - CMessageHeader.headerSize))).length =
      ssSend.length := length_overwrite (by rw [length_littleEndianBytes]; omega)
  have second : (sealed hash ssSend).length = ssSend.length := by
    unfold sealed
    rw [length_overwrite (by rw [length_littleEndianBytes, first]; omega), first]
  intro none
  rw [none] at second
  simp only [List.length_nil] at second
  omega

theorem length_strncpy (source : Bytes) (size : Nat) : (strncpy source size).length = size := by
  simp only [strncpy, List.length_append, List.length_replicate, List.length_take]
  omega

/-- A new message goes behind the others. -/
theorem Sound.queue {queued data : Bytes} {s : SendState} (sound : Sound queued s) (nonempty : data ≠ []) :
    Sound (queued ++ data)
      { s with ssSend := [], vSendMsg := s.vSendMsg ++ [data], nSendSize := s.nSendSize + data.length } := by
  have inQueue : s.nSendOffset ≤ s.vSendMsg.flatten.length := by
    cases shape : s.vSendMsg with
    | nil => rw [sound.empty shape]; exact Nat.zero_le _
    | cons first rest =>
        have inside := sound.offset first (by rw [shape]; rfl)
        rw [List.flatten_cons, List.length_append]
        omega
  refine ⟨rfl, ?_, ?_, fun none => absurd none (by simp), ?_, ?_⟩
  · intro other member
    rcases List.mem_append.mp member with old | own
    · exact sound.messages other old
    · obtain rfl := List.mem_singleton.mp own
      exact nonempty
  · intro other first
    cases shape : s.vSendMsg with
    | nil =>
        simp only [shape, List.nil_append, List.head?_cons, Option.mem_def, Option.some.injEq] at first
        subst first
        rw [sound.empty shape]
        exact List.length_pos_iff.mpr nonempty
    | cons front rest =>
        simp only [shape, List.cons_append, List.head?_cons, Option.mem_def, Option.some.injEq] at first
        subst first
        exact sound.offset front (by rw [shape]; rfl)
  · rw [sound.size, List.map_append, List.sum_append]
    simp
  · rw [← sound.bytes]
    simp only [unsent, List.flatten_append, List.flatten_singleton]
    rw [List.drop_append_of_le_length inQueue, List.append_assoc]

theorem next_sound (hash : Bytes → UInt256) {queued : Bytes} {s : SendState} (sound : Sound queued s) (event : SendEvent) :
    ∃ after, s.next hash event = some after ∧ Sound (queued ++ event.queued hash) after := by
  have back : { s with ssSend := [] } = s := by rw [← sound.idle]
  have begun : ∀ pszCommand, s.beginMessage pszCommand = some { s with
      ssSend := CMessageHeader.serialize ⟨pchMessageStart, strncpy pszCommand 12, 0, 0⟩ } := by
    intro pszCommand
    simp [beginMessage, sound.idle]
  cases event with
  | message pszCommand payload drop send =>
      have long : 24 ≤ (CMessageHeader.serialize ⟨pchMessageStart, strncpy pszCommand 12, 0, 0⟩ ++ payload).length := by
        simp only [CMessageHeader.serialize, List.length_append, length_strncpy, writeUInt32, length_littleEndianBytes]
        have four : pchMessageStart.length = 4 := rfl
        omega
      have some_ : ¬ (CMessageHeader.serialize ⟨pchMessageStart, strncpy pszCommand 12, 0, 0⟩ ++ payload).length = 0 := by
        omega
      have header : ¬ (CMessageHeader.serialize ⟨pchMessageStart, strncpy pszCommand 12, 0, 0⟩ ++ payload).length < 20 + 4 :=
        by omega
      cases drop with
      | true =>
          refine ⟨s, ?_, by simpa [SendEvent.queued] using sound⟩
          simp [next, pushMessage, begun, write, endMessage, abortMessage, back]
      | false =>
          have filled := sound.queue (@sealed_ne_nil hash _ long)
          simp only [next, pushMessage, begun, Option.bind_eq_bind, Option.bind_some, write, endMessage,
            SendEvent.queued, Bool.false_eq_true, if_false, some_, header]
          by_cases alone : s.vSendMsg = []
          · simp only [alone, if_true] at filled ⊢
            exact socketSendData_sound send filled
          · simp only [alone, if_false]
            exact ⟨_, rfl, filled⟩
  | abort pszCommand payload =>
      refine ⟨s, ?_, by simpa [SendEvent.queued] using sound⟩
      simp [next, begun, write, abortMessage, back]
  | socketSendData send =>
      obtain ⟨after, done, kept⟩ := socketSendData_sound send sound
      exact ⟨after, done, by simpa [SendEvent.queued] using kept⟩

theorem run_sound (hash : Bytes → UInt256) {queued : Bytes} {s : SendState} (sound : Sound queued s)
    (events : List SendEvent) :
    ∃ after, s.run hash events = some after ∧ Sound (queued ++ events.flatMap (SendEvent.queued hash)) after := by
  induction events generalizing s queued with
  | nil => exact ⟨s, rfl, by simpa using sound⟩
  | cons event events ih =>
      obtain ⟨middle, done, kept⟩ := next_sound hash sound event
      obtain ⟨after, rest, final⟩ := ih kept
      refine ⟨after, by rw [run, done]; exact rest, ?_⟩
      rwa [List.flatMap_cons, ← List.append_assoc]

/-- Whatever the socket takes in each call, no assertion fails, the bytes it has taken followed by the unsent part of
the queue are the messages in order, and `nSendSize` is the size of the entries. -/
theorem send_queue_exact (hash : Bytes → UInt256) (events : List SendEvent) :
    ∃ s, start.run hash events = some s ∧ s.accepted ++ s.unsent = events.flatMap (SendEvent.queued hash) ∧
      s.nSendSize = (s.vSendMsg.map List.length).sum := by
  have start_sound : Sound [] start :=
    ⟨rfl, List.forall_mem_nil _, fun _ none => (nomatch none), fun _ => rfl, rfl, rfl⟩
  obtain ⟨s, done, sound⟩ := run_sound hash start_sound events
  exact ⟨s, done, sound.bytes, sound.size⟩

end SendState

end InfiniteRicks
