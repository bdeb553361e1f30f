import WebKit.Base.ByteOrder
import WebKit.Base.Codec

/-! The serialization of IndexedDB keys. A double is its bits, and data is never in the legacy format. -/
namespace WebKit.IndexedDB

open Base

inductive IDBKeyData where
  | min
  | max
  | number (value : UInt64)
  | date (value : UInt64)
  | string (value : List UInt16)
  | binary (value : List UInt8)
  | array (value : List IDBKeyData)

def SIDBKeyVersion : UInt8 := 0x00

namespace SIDBKeyType

def min : UInt8 := 0x00

def number : UInt8 := 0x20

def date : UInt8 := 0x40

def string : UInt8 := 0x60

def binary : UInt8 := 0x80

def array : UInt8 := 0xA0

def max : UInt8 := 0xFF

end SIDBKeyType

def maximumVectorSize : Nat := 4294967295

mutual

def encodeKey : IDBKeyData → List UInt8
  | .min => [SIDBKeyType.min]
  | .max => [SIDBKeyType.max]
  | .number value => SIDBKeyType.number :: writeLittleEndian 8 value.toNat
  | .date value => SIDBKeyType.date :: writeLittleEndian 8 value.toNat
  | .string value =>
    SIDBKeyType.string :: (writeLittleEndian 4 value.length ++ value.flatMap fun unit => writeLittleEndian 2 unit.toNat)
  | .binary value => SIDBKeyType.binary :: (writeLittleEndian 8 value.length ++ value)
  | .array value => SIDBKeyType.array :: (writeLittleEndian 8 value.length ++ encodeKeys value)

def encodeKeys : List IDBKeyData → List UInt8
  | [] => []
  | key::keys => encodeKey key ++ encodeKeys keys

end

def serializeIDBKeyData (key : IDBKeyData) : List UInt8 := SIDBKeyVersion :: encodeKey key

/-- Data is rejected, or a vector cannot be that large and the process is stopped. -/
inductive DecodeFailure where
  | rejected
  | crash
  deriving DecidableEq

def read (width : Nat) (data : List UInt8) : Except DecodeFailure (Nat × List UInt8) :=
  match readLittleEndian width data with
  | some result => .ok result
  | none => .error .rejected

def reserveInitialCapacity (count size : Nat) : Except DecodeFailure Unit :=
  if count > maximumVectorSize/size then .error .crash else .ok ()

def readDouble (data : List UInt8) : Except DecodeFailure (UInt64 × List UInt8) := do
  let (value, data) ← read 8 data
  return (.ofNat value, data)

def readUnit (data : List UInt8) : Except DecodeFailure (UInt16 × List UInt8) := do
  let (unit, data) ← read 2 data
  return (.ofNat unit, data)

/-- The size in bytes is a 32-bit number. -/
def decodeString (data : List UInt8) : Except DecodeFailure (List UInt16 × List UInt8) := do
  let (length, data) ← read 4 data
  if data.length < length*2%4294967296 then .error .rejected
  else
    reserveInitialCapacity length 2
    decodeElements readUnit length data

def decodeBinary (data : List UInt8) : Except DecodeFailure (List UInt8 × List UInt8) := do
  let (size, data) ← read 8 data
  if data.length < size then .error .rejected
  else
    reserveInitialCapacity size 1
    return (data.take size, data.drop size)

def decodeArray (sizeOfKey : Nat) (decodeKey : List UInt8 → Except DecodeFailure (IDBKeyData × List UInt8)) (data : List UInt8) :
    Except DecodeFailure (List IDBKeyData × List UInt8) := do
  let (size, data) ← read 8 data
  reserveInitialCapacity size sizeOfKey
  decodeElements decodeKey size data

def set {α : Type} (key : α → IDBKeyData) (decoded : Except DecodeFailure (α × List UInt8)) :
    Except DecodeFailure (IDBKeyData × List UInt8) := do
  let (value, data) ← decoded
  return (key value, data)

/-- The fuel bounds the depth of the arrays. -/
def decodeKey (sizeOfKey : Nat) : Nat → List UInt8 → Except DecodeFailure (IDBKeyData × List UInt8)
  | 0, _ => .error .rejected
  | _, [] => .error .rejected
  | fuel + 1, type::data =>
    if type = SIDBKeyType.min then .ok (.min, data)
    else if type = SIDBKeyType.max then .ok (.max, data)
    else if type = SIDBKeyType.number then set .number (readDouble data)
    else if type = SIDBKeyType.date then set .date (readDouble data)
    else if type = SIDBKeyType.string then set .string (decodeString data)
    else if type = SIDBKeyType.binary then set .binary (decodeBinary data)
    else if type = SIDBKeyType.array then set .array (decodeArray sizeOfKey (decodeKey sizeOfKey fuel) data)
    else .error .rejected

def deserializeIDBKeyData (sizeOfKey : Nat) : List UInt8 → Except DecodeFailure IDBKeyData
  | [] => .error .rejected
  | version::data =>
    if version ≠ SIDBKeyVersion then .error .rejected
    else
      match decodeKey sizeOfKey (data.length+1) data with
      | .ok (key, []) => .ok key
      | .ok _ => .error .rejected
      | .error failure => .error failure

end WebKit.IndexedDB
