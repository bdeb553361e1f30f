import WebKit.Base.ByteOrder

/-! WebSocket frames: what is parsed from a receive buffer and what is sent. Sizes are 64-bit. -/
namespace WebKit.WebSockets

open Base

def finalBit : UInt8 := 0x80

def compressBit : UInt8 := 0x40

def reserved2Bit : UInt8 := 0x20

def reserved3Bit : UInt8 := 0x10

def opCodeMask : UInt8 := 0xF

def maskBit : UInt8 := 0x80

def payloadLengthMask : UInt8 := 0x7F

def maxPayloadLengthWithoutExtendedLengthField : UInt64 := 125

def payloadLengthWithTwoByteExtendedLengthField : UInt64 := 126

def payloadLengthWithEightByteExtendedLengthField : UInt64 := 127

def maskingKeyWidthInBytes : Nat := 4

structure WebSocketFrame where
  opCode : UInt8
  final : Bool
  compress : Bool
  reserved2 : Bool
  reserved3 : Bool
  masked : Bool
  payload : List UInt8
  deriving DecidableEq

/-- The frame's end is an offset into the buffer. -/
inductive ParseFrameResult where
  | frameOK (frame : WebSocketFrame) (frameEnd : Nat)
  | frameIncomplete
  | frameError (errorString : String)
  deriving DecidableEq

def applyMask (maskingKey payload : List UInt8) : List UInt8 :=
  payload.mapIdx fun i byte => byte ^^^ maskingKey.getD (i%maskingKeyWidthInBytes) 0

/-- The payload length with the rest of the buffer, or why the frame is not parsed. -/
def readPayloadLength (secondByte : UInt8) (p : List UInt8) : Except ParseFrameResult (UInt64 × List UInt8) :=
  let payloadLength64 := (secondByte &&& payloadLengthMask).toUInt64
  if payloadLength64 > maxPayloadLengthWithoutExtendedLengthField then
    let extendedPayloadLengthSize := if payloadLength64 = payloadLengthWithTwoByteExtendedLengthField then 2 else 8
    if p.length < extendedPayloadLengthSize then .error .frameIncomplete
    else
      let payloadLength64 := (p.take extendedPayloadLengthSize).foldl shiftIn 0
      if extendedPayloadLengthSize = 2 ∧ payloadLength64 ≤ maxPayloadLengthWithoutExtendedLengthField then
        .error (.frameError "The minimal number of bytes MUST be used to encode the length")
      else if extendedPayloadLengthSize = 8 ∧ payloadLength64 ≤ 0xFFFF then
        .error (.frameError "The minimal number of bytes MUST be used to encode the length")
      else .ok (payloadLength64, p.drop extendedPayloadLengthSize)
  else .ok (payloadLength64, p)

def maxPayloadLength : UInt64 := 0x7FFFFFFFFFFFFFFF

/-- The result, and the buffer in which the payload has been unmasked. -/
def parseFrame (data : List UInt8) : ParseFrameResult × List UInt8 :=
  match data with
  | firstByte::secondByte::p =>
    let masked := secondByte &&& maskBit ≠ 0
    match readPayloadLength secondByte p with
    | .error result => (result, data)
    | .ok (payloadLength64, p) =>
      let maskingKeyLength : UInt64 := if masked then .ofNat maskingKeyWidthInBytes else 0
      if payloadLength64 > maxPayloadLength ∨ payloadLength64 + maskingKeyLength > 0xFFFFFFFFFFFFFFFF then
        (.frameError ("WebSocket frame length too large: " ++ toString payloadLength64 ++ " bytes"), data)
      else if p.length < (maskingKeyLength+payloadLength64).toNat then (.frameIncomplete, data)
      else
        let start := data.length - p.length + maskingKeyLength.toNat
        let payloadLength := payloadLength64.toNat
        let received := (data.drop start).take payloadLength
        let payload := if masked then applyMask (p.take maskingKeyWidthInBytes) received else received
        (.frameOK
          { opCode := firstByte &&& opCodeMask
            final := firstByte &&& finalBit ≠ 0
            compress := firstByte &&& compressBit ≠ 0
            reserved2 := firstByte &&& reserved2Bit ≠ 0
            reserved3 := firstByte &&& reserved3Bit ≠ 0
            masked
            payload } (start+payloadLength),
          data.take start ++ payload ++ data.drop (start+payloadLength))
  | _ => (.frameIncomplete, data)

/-- The masking key is random. -/
def appendFramePayload (frame : WebSocketFrame) (maskingKey : Vector UInt8 4) (frameData : List UInt8) : List UInt8 :=
  if frame.masked then frameData ++ maskingKey.toList ++ applyMask maskingKey.toList frame.payload
  else frameData ++ frame.payload

/-- The reserved bits are not sent. -/
def makeFrameData (frame : WebSocketFrame) (maskingKey : Vector UInt8 4) : List UInt8 :=
  let payloadLength : UInt64 := .ofNat frame.payload.length
  let firstByte := (if frame.final then finalBit else 0) ||| (if frame.compress then compressBit else 0) ||| frame.opCode
  let secondByte := if frame.masked then maskBit else 0
  let header :=
    if payloadLength ≤ maxPayloadLengthWithoutExtendedLengthField then [firstByte, secondByte ||| payloadLength.toUInt8]
    else if payloadLength ≤ 0xFFFF then
      [firstByte, secondByte ||| payloadLengthWithTwoByteExtendedLengthField.toUInt8,
        ((payloadLength &&& 0xFF00) >>> 8).toUInt8, (payloadLength &&& 0xFF).toUInt8]
    else
      firstByte :: (secondByte ||| payloadLengthWithEightByteExtendedLengthField.toUInt8) :: shiftOut 8 payloadLength []
  appendFramePayload frame maskingKey header

end WebKit.WebSockets
