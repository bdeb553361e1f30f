import WebKit.Base.ByteOrder
import WebKit.Base.Codec
import WebKit.WTF.UTF8Conversion
import WebKit.WebAuthn.CBORValue

/-! Writing and reading CBOR values. A nesting level below zero is no level at all. -/
namespace WebKit.WebAuthn

open Base WTF

def kAdditionalInformationMask : UInt8 := 0x1F

def kMajorTypeMask : UInt8 := 0xE0

def kMajorTypeBitShift : UInt8 := 5

def kAdditionalInformation1Byte : UInt8 := 24

def kAdditionalInformation2Bytes : UInt8 := 25

def kAdditionalInformation4Bytes : UInt8 := 26

def kAdditionalInformation8Bytes : UInt8 := 27

def getNumUintBytes (value : UInt64) : Nat :=
  if value < 24 then 0 else if value ≤ 0xFF then 1 else if value ≤ 0xFFFF then 2 else if value ≤ 0xFFFFFFFF then 4 else 8

def setAdditionalInformation (last additionalInformation : UInt8) : UInt8 :=
  last ||| (additionalInformation &&& kAdditionalInformationMask)

/-- Complete the last byte and write the number after it. -/
def setUint (last : UInt8) (value : UInt64) : List UInt8 :=
  match getNumUintBytes value with
  | 0 => [setAdditionalInformation last value.toUInt8]
  | 1 => setAdditionalInformation last kAdditionalInformation1Byte :: shiftDown value 1
  | 2 => setAdditionalInformation last kAdditionalInformation2Bytes :: shiftDown value 2
  | 4 => setAdditionalInformation last kAdditionalInformation4Bytes :: shiftDown value 4
  | _ => setAdditionalInformation last kAdditionalInformation8Bytes :: shiftDown value 8

def startItem (type : ValueType) (size : UInt64) : List UInt8 :=
  setUint (UInt8.ofInt type.toInt <<< kMajorTypeBitShift) size

inductive WriteFailure where
  | crash
  | tooMuchNesting
  deriving DecidableEq

mutual

/-- The number of levels is one more than the nesting level. -/
def encodeCBOR : Nat → CBORValue → Except WriteFailure (List UInt8)
  | 0, _ => .error .tooMuchNesting
  | _ + 1, .none => .ok (startItem .byteString 0)
  | _ + 1, .integer value =>
    if value ≥ 0 then .ok (startItem .unsigned value.toUInt64) else .ok (startItem .negative (-(value+1)).toUInt64)
  | _ + 1, .byteString bytes => .ok (startItem .byteString (.ofNat bytes.length) ++ bytes)
  | _ + 1, .string string =>
    match tryGetUtf8 string with
    | none => .error .crash
    | some utf8String => .ok (startItem .string (.ofNat utf8String.length) ++ utf8String)
  | levels + 1, .array array => do
    let elements ← encodeArray levels array
    return startItem .array (.ofNat array.length) ++ elements
  | levels + 1, .map map => do
    let entries ← encodeMap levels map
    return startItem .map (.ofNat map.length) ++ entries
  | _ + 1, .simpleValue simpleValue => .ok (startItem .simpleValue (.ofNat simpleValue.toNat))

def encodeArray : Nat → List CBORValue → Except WriteFailure (List UInt8)
  | _, [] => .ok []
  | levels, value::array => do
    let bytes ← encodeCBOR levels value
    let elements ← encodeArray levels array
    return bytes ++ elements

def encodeMap : Nat → List (CBORValue × CBORValue) → Except WriteFailure (List UInt8)
  | _, [] => .ok []
  | levels, (key, value) :: map => do
    let keyBytes ← encodeCBOR levels key
    let valueBytes ← encodeCBOR levels value
    let entries ← encodeMap levels map
    return keyBytes ++ valueBytes ++ entries

end

def kDefaultMaxNestingDepth : Nat := 16

def write (node : CBORValue) : Except WriteFailure (List UInt8) := encodeCBOR (kDefaultMaxNestingDepth+1) node

inductive DecoderError where
  | unsupportedMajorType
  | unknownAdditionalInfo
  | incompleteCBORData
  | incorrectMapKeyType
  | tooMuchNesting
  | invalidUTF8
  | extraneousData
  | duplicateKey
  | outOfOrderKey
  | nonMinimalCBOREncoding
  | unsupportedSimpleValue
  | unsupportedFloatingPointValue
  | outOfRangeIntegerValue
  deriving DecidableEq

/-- The process is stopped, or there is an error and reading goes on at some place. -/
inductive ReadFailure where
  | crash
  | error (code : DecoderError) (it : List UInt8)
  deriving DecidableEq

def getMajorType (initialDataByte : UInt8) : Option ValueType :=
  match ((initialDataByte &&& kMajorTypeMask) >>> kMajorTypeBitShift).toNat with
  | 0 => some .unsigned
  | 1 => some .negative
  | 2 => some .byteString
  | 3 => some .string
  | 4 => some .array
  | 5 => some .map
  | 7 => some .simpleValue
  | _ => none

def getAdditionalInfo (initialDataByte : UInt8) : UInt8 := initialDataByte &&& kAdditionalInformationMask

def checkMinimalEncoding (additionalBytes : Nat) (uintData : UInt64) : Bool :=
  !((additionalBytes == 1 && uintData < 24) || uintData ≤ ((1 : UInt64) <<< UInt64.ofNat (8*(additionalBytes >>> 1))) - 1)

def readAdditionalBytes (additionalBytes : Nat) (it : List UInt8) : Except ReadFailure (UInt64 × List UInt8) :=
  if it.length < additionalBytes then .error (.error .incompleteCBORData it)
  else
    let intData := (it.take additionalBytes).foldl shiftIn 0
    let it := it.drop additionalBytes
    if checkMinimalEncoding additionalBytes intData then .ok (intData, it)
    else .error (.error .nonMinimalCBOREncoding it)

def readVariadicLengthInteger (additionalInfo : UInt8) (it : List UInt8) : Except ReadFailure (UInt64 × List UInt8) :=
  if additionalInfo < 24 then .ok (additionalInfo.toUInt64, it)
  else if additionalInfo = 24 then readAdditionalBytes 1 it
  else if additionalInfo = 25 then readAdditionalBytes 2 it
  else if additionalInfo = 26 then readAdditionalBytes 4 it
  else if additionalInfo = 27 then readAdditionalBytes 8 it
  else .error (.error .unknownAdditionalInfo it)

def maxInteger : UInt64 := 0x7FFFFFFFFFFFFFFF

def decodeValueToNegative (value : UInt64) (it : List UInt8) : Except ReadFailure (CBORValue × List UInt8) :=
  if value > maxInteger then .error (.error .outOfRangeIntegerValue it) else .ok (.integer (-value.toInt64-1), it)

def decodeValueToUnsigned (value : UInt64) (it : List UInt8) : Except ReadFailure (CBORValue × List UInt8) :=
  if value > maxInteger then .error (.error .outOfRangeIntegerValue it) else .ok (.integer value.toInt64, it)

def readSimpleValue (additionalInfo : UInt8) (value : UInt64) (it : List UInt8) :
    Except ReadFailure (CBORValue × List UInt8) :=
  if additionalInfo > 24 ∧ additionalInfo < 28 then .error (.error .unsupportedFloatingPointValue it)
  else
    match value.toNat with
    | 20 => .ok (.simpleValue .falseValue, it)
    | 21 => .ok (.simpleValue .trueValue, it)
    | 22 => .ok (.simpleValue .nullValue, it)
    | 23 => .ok (.simpleValue .undefined, it)
    | _ => .error (.error .unsupportedSimpleValue it)

def readString (numBytes : UInt64) (it : List UInt8) : Except ReadFailure (CBORValue × List UInt8) :=
  if it.length < numBytes.toNat then .error (.error .incompleteCBORData it)
  else
    let cborString := fromUTF8 (it.take numBytes.toNat)
    let it := it.drop numBytes.toNat
    match cborString with
    | .crash => .error .crash
    | .null => if numBytes = 0 then .ok (.string [], it) else .error (.error .invalidUTF8 it)
    | .string characters =>
      if numBytes = 0 ∨ characters ≠ [] then .ok (.string characters, it) else .error (.error .invalidUTF8 it)

def readBytes (numBytes : UInt64) (it : List UInt8) : Except ReadFailure (CBORValue × List UInt8) :=
  if it.length < numBytes.toNat then .error (.error .incompleteCBORData it)
  else .ok (.byteString (it.take numBytes.toNat), it.drop numBytes.toNat)

def readCBORArray (decodeCBOR : List UInt8 → Except ReadFailure (CBORValue × List UInt8)) (length : UInt64)
    (it : List UInt8) : Except ReadFailure (CBORValue × List UInt8) := do
  let (cborArray, it) ← decodeElements decodeCBOR length.toNat it
  return (.array cborArray, it)

def checkDuplicateKey (newKey : CBORValue) (map : List (CBORValue × CBORValue)) : Bool :=
  !map.any fun entry => !CTAPLess newKey entry.1 && !CTAPLess entry.1 newKey

def checkOutOfOrderKey (newKey : CBORValue) (map : List (CBORValue × CBORValue)) : Bool :=
  match map.getLast? with
  | none => true
  | some entry => !CTAPLess newKey entry.1

/-- Put an entry in its place, unless its key is there. -/
def emplace (key value : CBORValue) : List (CBORValue × CBORValue) → List (CBORValue × CBORValue)
  | [] => [(key, value)]
  | entry::map =>
    if CTAPLess key entry.1 then (key, value) :: entry::map
    else if CTAPLess entry.1 key then entry :: emplace key value map
    else entry :: map

/-- A value is also read after a key that could not be read. -/
def readKeyAndValue (decodeCBOR : List UInt8 → Except ReadFailure (CBORValue × List UInt8)) (it : List UInt8) :
    Except ReadFailure ((CBORValue × CBORValue) × List UInt8) :=
  match decodeCBOR it with
  | .ok (key, it) =>
    match decodeCBOR it with
    | .ok (value, it) => .ok ((key, value), it)
    | .error failure => .error failure
  | .error (.error code it) =>
    match decodeCBOR it with
    | .ok (_, it) => .error (.error code it)
    | .error failure => .error failure
  | .error .crash => .error .crash

def readEntries (decodeCBOR : List UInt8 → Except ReadFailure (CBORValue × List UInt8)) :
    Nat → List UInt8 → List (CBORValue × CBORValue) → Except ReadFailure (List (CBORValue × CBORValue) × List UInt8)
  | 0, it, cborMap => .ok (cborMap, it)
  | length + 1, it, cborMap => do
    let ((key, value), it) ← readKeyAndValue decodeCBOR it
    if key.type ≠ .string ∧ key.type ≠ .unsigned then .error (.error .incorrectMapKeyType it)
    else if !checkDuplicateKey key cborMap then .error (.error .duplicateKey it)
    else if !checkOutOfOrderKey key cborMap then .error (.error .outOfOrderKey it)
    else readEntries decodeCBOR length it (emplace key value cborMap)

def readCBORMap (decodeCBOR : List UInt8 → Except ReadFailure (CBORValue × List UInt8)) (length : UInt64)
    (it : List UInt8) : Except ReadFailure (CBORValue × List UInt8) := do
  let (cborMap, it) ← readEntries decodeCBOR length.toNat it []
  return (.map cborMap, it)

def readItem (decodeCBOR : List UInt8 → Except ReadFailure (CBORValue × List UInt8)) (majorType : Option ValueType)
    (additionalInfo : UInt8) (value : UInt64) (it : List UInt8) : Except ReadFailure (CBORValue × List UInt8) :=
  match majorType with
  | some .unsigned => decodeValueToUnsigned value it
  | some .negative => decodeValueToNegative value it
  | some .byteString => readBytes value it
  | some .string => readString value it
  | some .array => readCBORArray decodeCBOR value it
  | some .map => readCBORMap decodeCBOR value it
  | some .simpleValue => readSimpleValue additionalInfo value it
  | _ => .error (.error .unsupportedMajorType it)

def kCBORMaxDepth : Nat := 16

/-- The number of levels is one more than the nesting level. -/
def decodeCBOR : Nat → List UInt8 → Except ReadFailure (CBORValue × List UInt8)
  | 0, it => .error (.error .tooMuchNesting it)
  | levels + 1, it =>
    if levels > kCBORMaxDepth then .error (.error .tooMuchNesting it)
    else
      match it with
      | [] => .error (.error .incompleteCBORData [])
      | initialByte::it => do
        let additionalInfo := getAdditionalInfo initialByte
        let (value, it) ← readVariadicLengthInteger additionalInfo it
        readItem (decodeCBOR levels) (getMajorType initialByte) additionalInfo value it

/-- The error code, or nothing if the process is stopped. -/
def read (data : List UInt8) : Except (Option DecoderError) CBORValue :=
  match decodeCBOR (kCBORMaxDepth+1) data with
  | .ok (value, []) => .ok value
  | .ok _ => .error (some .extraneousData)
  | .error (.error code _) => .error (some code)
  | .error .crash => .error none

end WebKit.WebAuthn
