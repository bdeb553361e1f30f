import WebKit.WTF.UTF8Conversion
import WebKit.WebSockets.FrameRoundTrip

/-! Receiving on a connected channel without extensions (WebSocketChannel.cpp). The client does not call the channel back while
it is told of an event, and what is sent neither waits nor fails. -/
namespace WebKit.WebSockets
open List WTF

def opCodeContinuation : UInt8 := 0x0

def opCodeText : UInt8 := 0x1

def opCodeBinary : UInt8 := 0x2

def opCodeClose : UInt8 := 0x8

def opCodePing : UInt8 := 0x9

def opCodePong : UInt8 := 0xA

def isNonControlOpCode (opCode : UInt8) : Bool := opCode ∈ [opCodeContinuation, opCodeText, opCodeBinary]

def isControlOpCode (opCode : UInt8) : Bool := opCode ∈ [opCodeClose, opCodePing, opCodePong]

def needsExtendedLengthField (payloadLength : Nat) : Bool := payloadLength > 125

/-- What the client and the console are told, and what goes to the socket. A string that is too long stops the process. -/
inductive Event where
  | didReceiveMessage (message : List UInt16)
  | didReceiveBinaryData (data : List UInt8)
  | didReceiveMessageError (reason : String)
  | didStartClosingHandshake
  | sendFrame (opCode : UInt8) (payload : List UInt8)
  | disconnect
  | closeHandle
  | crash

/-- The channel but for its receive buffer. -/
structure Receiver where
  closing : Bool
  receivedClosingHandshake : Bool
  shouldDiscardReceivedData : Bool
  hasContinuousFrame : Bool
  continuousFrameOpCode : UInt8
  continuousFrameData : List UInt8
  closeEventCode : UInt16
  closeEventReason : FromUTF8
  outgoingFrameQueueClosed : Bool

namespace Receiver
variable (receiver : Receiver)

/-- The buffer is emptied by the caller. -/
def fail (reason : String) : Receiver × List Event :=
  ({ receiver with
      shouldDiscardReceivedData := true
      hasContinuousFrame := false
      continuousFrameData := [] },
    [.didReceiveMessageError reason, .disconnect])

/-- The queue is processed at once. -/
def enqueueRawFrame (opCode : UInt8) (payload : List UInt8) : List Event :=
  if receiver.outgoingFrameQueueClosed then [] else [.sendFrame opCode payload]

/-- The checks of a frame, the first of which is that of the extension framer. -/
def failureReason (frame : WebSocketFrame) : Option String :=
  if frame.compress then some "Compressed bit must be 0 if no negotiated deflate-frame extension"
  else if !isNonControlOpCode frame.opCode && !isControlOpCode frame.opCode then
    some ("Unrecognized frame opcode: " ++ toString frame.opCode)
  else if frame.reserved2 || frame.reserved3 then
    some ("One or more reserved bits are on: reserved2 = " ++ toString frame.reserved2.toNat ++ ", reserved3 = " ++
      toString frame.reserved3.toNat)
  else if frame.masked then some "A server must not mask any frames that it sends to the client."
  else if isControlOpCode frame.opCode && !frame.final then
    some ("Received fragmented control frame: opcode = " ++ toString frame.opCode)
  else if isControlOpCode frame.opCode && needsExtendedLengthField frame.payload.length then
    some ("Received control frame having too long payload: " ++ toString frame.payload.length ++ " bytes")
  else if receiver.hasContinuousFrame && frame.opCode ≠ opCodeContinuation && !isControlOpCode frame.opCode then
    some "Received new data frame but previous continuous frame is unfinished."
  else none

/-- A complete message, of the kind that its first frame says. -/
def receiveMessage (opCode : UInt8) (data : List UInt8) : Receiver × List Event :=
  if opCode = opCodeText then
    match fromUTF8 data with
    -- Nothing is received any more.
    | .crash => ({ receiver with shouldDiscardReceivedData := true }, [.crash])
    | .null => receiver.fail "Could not decode a text frame as UTF-8."
    | .string message => (receiver, [.didReceiveMessage message])
  else if opCode = opCodeBinary then (receiver, [.didReceiveBinaryData data])
  else (receiver, [])

def receiveContinuation (final : Bool) (payload : List UInt8) : Receiver × List Event :=
  let continuousFrameData := receiver.continuousFrameData ++ payload
  if !receiver.hasContinuousFrame then receiver.fail "Received unexpected continuation frame."
  else if final then
    { receiver with hasContinuousFrame := false, continuousFrameData := [] }.receiveMessage
      receiver.continuousFrameOpCode continuousFrameData
  else ({ receiver with continuousFrameData }, [])

def receiveData (opCode : UInt8) (final : Bool) (payload : List UInt8) : Receiver × List Event :=
  if final then receiver.receiveMessage opCode payload
  else
    ({ receiver with
        hasContinuousFrame := true
        continuousFrameOpCode := opCode
        continuousFrameData := receiver.continuousFrameData ++ payload },
      [])

/-- The answer to a close frame. The outgoing queue is closed behind it. -/
def startClosingHandshake : Receiver × List Event :=
  ({ receiver with receivedClosingHandshake := true, closing := true, outgoingFrameQueueClosed := true },
    (if receiver.closing then [] else receiver.enqueueRawFrame opCodeClose [] ++ [.didStartClosingHandshake]) ++
      if receiver.outgoingFrameQueueClosed then [] else [.closeHandle])

def receiveClose : List UInt8 → Receiver × List Event
  | [] => { receiver with closeEventCode := 1005, closeEventReason := .string [] }.startClosingHandshake
  | [_] => { receiver with closeEventCode := 1006 }.fail "Received a broken close frame containing an invalid size body."
  | high::low::reason =>
    let closeEventCode := high.toUInt16 <<< 8 ||| low.toUInt16
    if closeEventCode ∈ [1005, 1006, 1015] then
      { receiver with closeEventCode := 1006 }.fail "Received a broken close frame containing a reserved status code."
    else { receiver with closeEventCode, closeEventReason := fromUTF8 reason }.startClosingHandshake

/-- What a frame does to the channel, but for the buffer. -/
def receiveFrame (frame : WebSocketFrame) : Receiver × List Event :=
  match receiver.failureReason frame with
  | some reason => receiver.fail reason
  | none =>
    if frame.opCode = opCodeContinuation then receiver.receiveContinuation frame.final frame.payload
    else if isNonControlOpCode frame.opCode then receiver.receiveData frame.opCode frame.final frame.payload
    else if frame.opCode = opCodeClose then receiver.receiveClose frame.payload
    else if frame.opCode = opCodePing then (receiver, receiver.enqueueRawFrame opCodePong frame.payload)
    else (receiver, [])

end Receiver

/-- A length that has been read, or refused, does not depend on the bytes behind it. -/
theorem readPayloadLength_append {secondByte : UInt8} {p : List UInt8} (more : List UInt8)
    (h : readPayloadLength secondByte p ≠ .error .frameIncomplete) :
    readPayloadLength secondByte (p ++ more) =
      (readPayloadLength secondByte p).map fun read => (read.1, read.2 ++ more) := by
  unfold readPayloadLength at h ⊢
  dsimp only at h ⊢
  by_cases he : (secondByte &&& payloadLengthMask).toUInt64 > maxPayloadLengthWithoutExtendedLengthField
  · rw [if_pos he] at h ⊢
    rw [if_pos he]
    -- The size of the extended length does not depend on what is there.
    generalize (if (secondByte &&& payloadLengthMask).toUInt64 = payloadLengthWithTwoByteExtendedLengthField then 2 else 8) =
      size at h ⊢
    by_cases hl : p.length < size
    · exact absurd (if_pos hl) h
    rw [if_neg hl,length_append,if_neg (by omega),take_append_of_le_length (by omega),drop_append_of_le_length (by omega)]
    split_ifs <;> rfl
  · rw [if_neg he,if_neg he]
    rfl

/-- What the parser says of a complete frame does not depend on the bytes behind it. -/
theorem parseFrame_append_eq {data : List UInt8} (more : List UInt8) (h : (parseFrame data).1 ≠ .frameIncomplete) :
    (parseFrame (data ++ more)).1 = (parseFrame data).1 ∧
      ∀ frame frameEnd, (parseFrame data).1 = .frameOK frame frameEnd → frameEnd ≤ data.length := by
  match data with
  | [] => exact absurd rfl h
  | [_] => exact absurd rfl h
  | firstByte::secondByte::p =>
    rw [cons_append,cons_append]
    cases hrd : readPayloadLength secondByte p with
    | error r =>
      simp only [parseFrame,hrd] at h ⊢
      have ha := readPayloadLength_append more (by rw [hrd]; exact fun he => h (Except.error.inj he))
      simp only [ha,hrd,Except.map]
      exact ⟨trivial,fun frame n hr => absurd hr (readPayloadLength_error hrd frame n)⟩
    | ok read =>
      obtain ⟨length,rest⟩ := read
      have ha := readPayloadLength_append more (by rw [hrd]; simp)
      rw [hrd] at ha
      change _ = Except.ok (length, rest ++ more) at ha
      by_cases hmx : length.toNat < 9223372036854775808
      · rw [parseFrame_of_read firstByte hrd hmx] at h ⊢
        by_cases hi : rest.length < maskingKeyLength secondByte + length.toNat
        · rw [if_pos hi] at h
          exact absurd rfl h
        have hs := suffix_length hrd
        rw [parseFrame_of_read firstByte ha hmx,if_neg hi,if_neg (by rw [length_append]; omega)]
        have hr : ((rest ++ more).drop (maskingKeyLength secondByte)).take length.toNat =
            (rest.drop (maskingKeyLength secondByte)).take length.toNat := by
          rw [drop_append_of_le_length (by omega),take_append_of_le_length (by rw [length_drop]; omega)]
        dsimp only
        rw [hr]
        refine ⟨?_,fun frame n hr => ?_⟩
        · by_cases hm : secondByte &&& maskBit ≠ 0
          · rw [maskingKeyLength,if_pos hm] at hi
            rw [if_pos hm,if_pos hm,take_append_of_le_length (by omega)]
          · rw [if_neg hm,if_neg hm]
        · rw [← (ParseFrameResult.frameOK.inj hr).2]
          simp only [length_cons]
          omega
      · have hl : length > maxPayloadLength := UInt64.lt_iff_toNat_lt.2 (Nat.not_lt.1 hmx)
        simp only [parseFrame,hrd,ha]
        rw [if_pos (.inl hl),if_pos (.inl hl)]
        exact ⟨rfl,by simp⟩

structure WebSocketChannel where
  buffer : List UInt8
  receiver : Receiver
  events : List Event

namespace WebSocketChannel

/-- A failure empties the buffer. -/
def skipBuffer (channel : WebSocketChannel) (len : Nat) : Receiver × List Event → WebSocketChannel
  | (receiver, events) =>
    ⟨if receiver.shouldDiscardReceivedData then [] else channel.buffer.drop len, receiver, channel.events ++ events⟩

/-- None if the frame is not complete. Unmasking does not change the bytes behind the frame. -/
def processFrame (channel : WebSocketChannel) : Option WebSocketChannel :=
  match (parseFrame channel.buffer).1 with
  | .frameIncomplete => none
  | .frameError reason => some (channel.skipBuffer 0 (channel.receiver.fail reason))
  | .frameOK frame frameEnd => some (channel.skipBuffer frameEnd (channel.receiver.receiveFrame frame))

/-- None if there is nothing to do. -/
def processBuffer (channel : WebSocketChannel) : Option WebSocketChannel :=
  if channel.buffer.isEmpty || channel.receiver.shouldDiscardReceivedData then none
  else if channel.receiver.receivedClosingHandshake then some { channel with buffer := [] }
  else channel.processFrame

section
variable {channel next : WebSocketChannel}

theorem processFrame_cases (h : channel.processFrame = some next) :
    (∃ reason, (parseFrame channel.buffer).1 = .frameError reason ∧
      next = channel.skipBuffer 0 (channel.receiver.fail reason)) ∨
    ∃ frame frameEnd, (parseFrame channel.buffer).1 = .frameOK frame frameEnd ∧
      next = channel.skipBuffer frameEnd (channel.receiver.receiveFrame frame) := by
  unfold processFrame at h
  cases hp : (parseFrame channel.buffer).1 with
  | frameIncomplete => simp [hp] at h
  | frameError reason => exact .inl ⟨reason,rfl,by simpa [hp] using h.symm⟩
  | frameOK frame frameEnd => exact .inr ⟨frame,frameEnd,rfl,by simpa [hp] using h.symm⟩

theorem processBuffer_cases (h : channel.processBuffer = some next) :
    0 < channel.buffer.length ∧ channel.receiver.shouldDiscardReceivedData = false ∧
      (channel.receiver.receivedClosingHandshake ∧ next = { channel with buffer := [] } ∨
        channel.receiver.receivedClosingHandshake = false ∧ channel.processFrame = some next) := by
  unfold processBuffer at h
  split_ifs at h <;> simp_all [length_pos_iff]

private theorem length_of_processBuffer (h : channel.processBuffer = some next) : next.buffer.length < channel.buffer.length := by
  obtain ⟨hl,-,⟨-,rfl⟩ | ⟨-,h⟩⟩ := processBuffer_cases h
  · exact hl
  obtain ⟨reason,-,rfl⟩ | ⟨frame,frameEnd,hp,rfl⟩ := processFrame_cases h
  · exact hl
  have hn := parseFrame_ok_length (Prod.ext hp rfl)
  simp only [skipBuffer]
  split
  · exact hl
  · rw [length_drop]
    omega

end

/-- The loop over the buffer. -/
def resumeTimerFired (channel : WebSocketChannel) : WebSocketChannel :=
  match _h : channel.processBuffer with
  | none => channel
  | some next => next.resumeTimerFired
termination_by channel.buffer.length
decreasing_by exact length_of_processBuffer _h

def appendToBuffer (channel : WebSocketChannel) (data : List UInt8) : WebSocketChannel :=
  if channel.receiver.shouldDiscardReceivedData then channel else { channel with buffer := channel.buffer ++ data }

inductive Action where
  | didReceiveSocketStreamData (first : UInt8) (data : List UInt8)
  | suspend
  | resume
  | resumeTimerFired

/-- One action on a channel that may be suspended. -/
def perform : WebSocketChannel × Bool → Action → WebSocketChannel × Bool
  | (channel, suspended), .didReceiveSocketStreamData first data =>
    let channel := channel.appendToBuffer (first::data)
    (if suspended then channel else channel.resumeTimerFired, suspended)
  | (channel, _), .suspend => (channel, true)
  | (channel, _), .resume => (channel, false)
  | (channel, suspended), .resumeTimerFired => (if suspended then channel else channel.resumeTimerFired, suspended)

def received : Action → List UInt8
  | .didReceiveSocketStreamData first data => first::data
  | _ => []

section
variable {channel next : WebSocketChannel}

theorem resumeTimerFired_of_some (h : channel.processBuffer = some next) :
    channel.resumeTimerFired = next.resumeTimerFired := by
  rw [resumeTimerFired]
  split <;> simp_all

theorem resumeTimerFired_of_none (h : channel.processBuffer = none) : channel.resumeTimerFired = channel := by
  rw [resumeTimerFired]
  split
  · rfl
  · simp_all

private theorem appendToBuffer_append (channel : WebSocketChannel) (data more : List UInt8) :
    (channel.appendToBuffer data).appendToBuffer more = channel.appendToBuffer (data ++ more) := by
  by_cases hd : channel.receiver.shouldDiscardReceivedData <;> simp [appendToBuffer,hd]

/-- After a close frame the bytes are dropped. -/
theorem resumeTimerFired_of_closed (hd : channel.receiver.shouldDiscardReceivedData = false)
    (hc : channel.receiver.receivedClosingHandshake) (buffer : List UInt8) :
    resumeTimerFired { channel with buffer } = { channel with buffer := [] } := by
  have hn : processBuffer { channel with buffer := [] } = none := rfl
  cases buffer with
  | nil => exact resumeTimerFired_of_none hn
  | cons first data =>
    rw [resumeTimerFired_of_some,resumeTimerFired_of_none hn]
    simp [processBuffer,hd,hc]

/-- A step does not look at the bytes behind those that it takes. -/
theorem resumeTimerFired_append_of_some (h : channel.processBuffer = some next) (data : List UInt8) :
    (channel.appendToBuffer data).resumeTimerFired = (next.appendToBuffer data).resumeTimerFired := by
  obtain ⟨hl,hd,⟨hc,rfl⟩ | ⟨hc,h⟩⟩ := processBuffer_cases h
  · rw [appendToBuffer,appendToBuffer,if_neg (by simp [hd]),if_neg (by simp [hd])]
    exact (resumeTimerFired_of_closed hd hc _).trans (resumeTimerFired_of_closed hd hc data).symm
  apply resumeTimerFired_of_some
  have hb : (channel.appendToBuffer data).processBuffer = processFrame { channel with buffer := channel.buffer ++ data } := by
    simp_all [processBuffer,appendToBuffer,length_pos_iff]
  rw [hb,processFrame]
  obtain ⟨reason,hp,rfl⟩ | ⟨frame,frameEnd,hp,rfl⟩ := processFrame_cases h
  all_goals
    obtain ⟨he,hle⟩ := parseFrame_append_eq data (by rw [hp]; simp)
    simp only [he,hp]
  · rfl
  · simp only [skipBuffer,appendToBuffer,drop_append_of_le_length (hle _ _ hp)]
    split_ifs <;> rfl

/-- What is done before the other bytes come is not done again. -/
theorem resumeTimerFired_appendToBuffer (channel : WebSocketChannel) (data : List UInt8) :
    (channel.resumeTimerFired.appendToBuffer data).resumeTimerFired = (channel.appendToBuffer data).resumeTimerFired := by
  induction channel using resumeTimerFired.induct with
  | case1 channel h => rw [resumeTimerFired_of_none h]
  | case2 channel next h ih => rw [resumeTimerFired_of_some h,ih,resumeTimerFired_append_of_some h]

/-- One action, with bytes that come later. -/
theorem perform_appendToBuffer (state : WebSocketChannel × Bool) (action : Action) (data : List UInt8) :
    ((perform state action).1.appendToBuffer data).resumeTimerFired =
      (state.1.appendToBuffer (received action ++ data)).resumeTimerFired := by
  obtain ⟨channel,suspended⟩ := state
  cases action with
  | didReceiveSocketStreamData first more =>
    cases suspended with
    | true => exact congrArg _ (appendToBuffer_append channel _ data)
    | false =>
      exact (resumeTimerFired_appendToBuffer _ data).trans (congrArg _ (appendToBuffer_append channel _ data))
  | suspend => rfl
  | resume => rfl
  | resumeTimerFired =>
    cases suspended with
    | true => rfl
    | false => exact resumeTimerFired_appendToBuffer channel data

private theorem resumeTimerFired_run (actions : List Action) (state : WebSocketChannel × Bool) :
    (actions.foldl perform state).1.resumeTimerFired =
      (state.1.appendToBuffer (actions.flatMap received)).resumeTimerFired := by
  induction actions generalizing state with
  | nil => simp [appendToBuffer]
  | cons action actions ih => rw [foldl_cons,ih,perform_appendToBuffer,flatMap_cons]

private theorem events_of_processBuffer (h : channel.processBuffer = some next) : channel.events <+: next.events := by
  obtain ⟨-,-,⟨-,rfl⟩ | ⟨-,h⟩⟩ := processBuffer_cases h
  · exact prefix_rfl
  · obtain ⟨reason,-,rfl⟩ | ⟨frame,frameEnd,-,rfl⟩ := processFrame_cases h <;> exact prefix_append ..

/-- Nothing that has been told is taken back. -/
theorem events_resumeTimerFired (channel : WebSocketChannel) : channel.events <+: channel.resumeTimerFired.events := by
  induction channel using resumeTimerFired.induct with
  | case1 channel h => exact ⟨[],by rw [append_nil,resumeTimerFired_of_none h]⟩
  | case2 channel next h ih =>
    rw [resumeTimerFired_of_some h]
    exact (events_of_processBuffer h).trans ih

end

/-- Whatever the pieces in which bytes arrive and the times at which the channel is suspended, what it has told is a front of what
it tells of all the bytes at once, and it gets there when it has the time. -/
theorem run_eq_atOnce (channel : WebSocketChannel) (suspended : Bool) (actions : List Action) :
    let last := (actions.foldl perform (channel, suspended)).1
    let atOnce := (channel.appendToBuffer (actions.flatMap received)).resumeTimerFired
    last.resumeTimerFired = atOnce ∧ last.events <+: atOnce.events := by
  have hr := resumeTimerFired_run actions (channel, suspended)
  refine ⟨hr,?_⟩
  rw [← hr]
  exact events_resumeTimerFired _

end WebSocketChannel

end WebKit.WebSockets
