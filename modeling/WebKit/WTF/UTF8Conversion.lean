import WebKit.Base.Unicode

/-! Conversions between strings of 16-bit units and UTF-8. A source is what is left to convert; a target, what has been
written, has some room left. -/
namespace WebKit.WTF

inductive ConversionResult where
  | conversionOK
  | sourceExhausted
  | targetExhausted
  | sourceIllegal
  deriving DecidableEq

def replacementCharacter : Nat := 0xFFFD

def inlineUTF8SequenceLengthNonASCII (b0 : UInt8) : Nat :=
  if b0 &&& 0xC0 ≠ 0xC0 then 0
  else if b0 &&& 0xE0 = 0xC0 then 2
  else if b0 &&& 0xF0 = 0xE0 then 3
  else if b0 &&& 0xF8 = 0xF0 then 4
  else 0

def inlineUTF8SequenceLength (b0 : UInt8) : Nat := if b0 < 0x80 then 1 else inlineUTF8SequenceLengthNonASCII b0

def firstByteMark : Nat → Nat
  | 2 => 0xC0
  | 3 => 0xE0
  | 4 => 0xF0
  | 5 => 0xF8
  | 6 => 0xFC
  | _ => 0x00

/-- Write the bytes of a character before others, the last one first. -/
def writeUTF8Sequence (bytesToWrite : Nat) : Nat → Nat → List UInt8 → List UInt8
  | 0, _, target => target
  | 1, ch, target => .ofNat (ch ||| firstByteMark bytesToWrite) :: target
  | count + 2, ch, target => writeUTF8Sequence bytesToWrite (count+1) (ch >>> 6) (.ofNat ((ch ||| 0x80) &&& 0xBF) :: target)

def utf8Sequence (ch : Nat) : List UInt8 :=
  if ch < 0x80 then writeUTF8Sequence 1 1 ch []
  else if ch < 0x800 then writeUTF8Sequence 2 2 ch []
  else if ch < 0x10000 then writeUTF8Sequence 3 3 ch []
  else if ch < 0x110000 then writeUTF8Sequence 4 4 ch []
  else writeUTF8Sequence 3 3 replacementCharacter []

/-- Write bytes if there is room for them, and go on. -/
def writeBytes {α : Type} (bytes : List UInt8) (room : Nat) (oldSource : List α)
    (convert : Nat → ConversionResult × List α × List UInt8) : ConversionResult × List α × List UInt8 :=
  if bytes.length > room then (.targetExhausted, oldSource, [])
  else
    let (result, source, target) := convert (room-bytes.length)
    (result, source, bytes ++ target)

def convertLatin1ToUTF8 : List UInt8 → Nat → ConversionResult × List UInt8 × List UInt8
  | [], _ => (.conversionOK, [], [])
  | ch::source, room =>
    let bytesToWrite := if ch < 0x80 then 1 else 2
    writeBytes (writeUTF8Sequence bytesToWrite bytesToWrite ch.toNat []) room (ch::source) (convertLatin1ToUTF8 source)

def isLead (ch : UInt16) : Bool := 0xD800 ≤ ch && ch ≤ 0xDBFF

def isTrail (ch : UInt16) : Bool := 0xDC00 ≤ ch && ch ≤ 0xDFFF

def convertUTF16ToUTF8 (strict : Bool) : List UInt16 → Nat → ConversionResult × List UInt16 × List UInt8
  | [], _ => (.conversionOK, [], [])
  | ch::source, room =>
    if isLead ch then
      match source with
      | [] => (.sourceExhausted, [ch], [])
      | ch2::source' =>
        if isTrail ch2 then
          writeBytes (utf8Sequence (((ch.toNat-0xD800) <<< 10) + (ch2.toNat-0xDC00) + 0x10000)) room (ch::ch2::source')
            (convertUTF16ToUTF8 strict source')
        else if strict then (.sourceIllegal, ch::ch2::source', [])
        else writeBytes (utf8Sequence ch.toNat) room (ch::ch2::source') (convertUTF16ToUTF8 strict (ch2::source'))
    else if strict && isTrail ch then (.sourceIllegal, ch::source, [])
    else writeBytes (utf8Sequence ch.toNat) room (ch::source) (convertUTF16ToUTF8 strict source)

/-- The source has the bytes that its first one asks for. -/
def isLegalUTF8 (source : List UInt8) : Bool :=
  match source with
  | [b0] => isLegalFirst b0
  | [b0, b1] => isLegalSecond b0 b1 && isLegalFirst b0
  | [b0, b1, b2] => isContinuation b2 && isLegalSecond b0 b1 && isLegalFirst b0
  | [b0, b1, b2, b3] => isContinuation b3 && isContinuation b2 && isLegalSecond b0 b1 && isLegalFirst b0
  | _ => false
where
  isContinuation (a : UInt8) : Bool := !(a < 0x80 || a > 0xBF)
  isLegalSecond (b0 a : UInt8) : Bool :=
    if a > 0xBF then false
    else if b0 = 0xE0 then !(a < 0xA0)
    else if b0 = 0xED then !(a > 0x9F)
    else if b0 = 0xF0 then !(a < 0x90)
    else if b0 = 0xF4 then !(a > 0x8F)
    else !(a < 0x80)
  isLegalFirst (b0 : UInt8) : Bool := if b0 ≥ 0x80 ∧ b0 < 0xC2 then false else !(b0 > 0xF4)

def offsetsFromUTF8 : List Nat := [0x00000000, 0x00003080, 0x000E2080, 0x03C82080, 0xFA082080, 0x82082080]

def readUTF8Sequence (sequence : List UInt8) : Nat :=
  sequence.foldl (fun character byte => (character <<< 6) + byte.toNat) 0 - offsetsFromUTF8.getD (sequence.length-1) 0

def writeCharacter (strict : Bool) (character : Nat) (room : Nat) (oldSource : List UInt8)
    (convert : Nat → ConversionResult × List UInt8 × List UInt16) : ConversionResult × List UInt8 × List UInt16 :=
  if room = 0 then (.targetExhausted, oldSource, [])
  else if character ≤ 0xFFFF then
    if 0xD800 ≤ character ∧ character ≤ 0xDFFF then
      if strict then (.sourceIllegal, oldSource, [])
      else
        let (result, source, target) := convert (room-1)
        (result, source, .ofNat replacementCharacter :: target)
    else
      let (result, source, target) := convert (room-1)
      (result, source, .ofNat character :: target)
  else if character ≤ 0x10FFFF then
    if room = 1 then (.targetExhausted, oldSource, [])
    else
      let (result, source, target) := convert (room-2)
      (result, source, .ofNat ((character >>> 10) + 0xD7C0) :: .ofNat ((character &&& 0x3FF) ||| 0xDC00) :: target)
  else if strict then (.sourceIllegal, oldSource, [])
  else
    let (result, source, target) := convert (room-1)
    (result, source, .ofNat replacementCharacter :: target)

/-- The fuel bounds the number of characters. -/
def convertUTF8ToUTF16 (strict : Bool) : Nat → List UInt8 → Nat → ConversionResult × List UInt8 × List UInt16
  | _, [], _ => (.conversionOK, [], [])
  | 0, source, _ => (.sourceExhausted, source, [])
  | fuel + 1, b0::source, room =>
    let utf8SequenceLength := inlineUTF8SequenceLength b0
    if (b0::source).length < utf8SequenceLength then (.sourceExhausted, b0::source, [])
    else
      let sequence := (b0::source).take utf8SequenceLength
      if !isLegalUTF8 sequence then (.sourceIllegal, b0::source, [])
      else
        writeCharacter strict (readUTF8Sequence sequence) room (b0::source)
          (convertUTF8ToUTF16 strict fuel ((b0::source).drop utf8SequenceLength))

def MaxLength : Nat := 2147483647

/-- The longest string of 16-bit units with its header of 24 bytes. -/
def maxInternalLength : Nat := (4294967295-24)/2

def putUTF8Triple (character : UInt16) : List UInt8 :=
  [.ofNat (((character.toNat >>> 12) &&& 0x0F) ||| 0xE0), .ofNat (((character.toNat >>> 6) &&& 0x3F) ||| 0x80),
    .ofNat ((character.toNat &&& 0x3F) ||| 0x80)]

/-- A lenient conversion also writes surrogates. -/
def lenientUTF8 (characters : List UInt16) (room : Nat) : List UInt8 :=
  match convertUTF16ToUTF8 false characters room with
  | (.sourceExhausted, character::_, target) => target ++ putUTF8Triple character
  | (_, _, target) => target

/-- Nothing if the string is too long. -/
def tryGetUtf8 (string : List UInt16) : Option (List UInt8) :=
  if string.length = 0 then some []
  else if string.length > MaxLength/3 then none
  else some (lenientUTF8 string (string.length*3))

inductive FromUTF8 where
  | crash
  | null
  | string (characters : List UInt16)
  deriving DecidableEq

def fromUTF8 (source : List UInt8) : FromUTF8 :=
  if source.length > MaxLength then .crash
  else if source.length = 0 then .string []
  else if source.all (· < 0x80) then .string (source.map UInt8.toUInt16)
  else
    match convertUTF8ToUTF16 true source.length source source.length with
    | (.conversionOK, _, target) => if target.length > maxInternalLength then .crash else .string target
    | _ => .null

end WebKit.WTF
