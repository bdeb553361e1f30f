import Mathlib.Algebra.Group.Nat.Defs
import Mathlib.Data.Int.Order.Basic

/-! Base64 encoding into a buffer of a length computed before, and decoding in place. -/
namespace WebKit.WTF.Base64
open List

inductive EncodePolicy where
  | doNotInsertLFs
  | insertLFs
  | url
  deriving DecidableEq

structure DecodeOptions where
  validatePadding : Bool
  ignoreSpacesAndNewLines : Bool

/-- The character minus one. -/
def nonAlphabet : UInt8 := 0xFF

def base64EncMap : List UInt8 := [
  0x41, 0x42, 0x43, 0x44, 0x45, 0x46, 0x47, 0x48,
  0x49, 0x4A, 0x4B, 0x4C, 0x4D, 0x4E, 0x4F, 0x50,
  0x51, 0x52, 0x53, 0x54, 0x55, 0x56, 0x57, 0x58,
  0x59, 0x5A, 0x61, 0x62, 0x63, 0x64, 0x65, 0x66,
  0x67, 0x68, 0x69, 0x6A, 0x6B, 0x6C, 0x6D, 0x6E,
  0x6F, 0x70, 0x71, 0x72, 0x73, 0x74, 0x75, 0x76,
  0x77, 0x78, 0x79, 0x7A, 0x30, 0x31, 0x32, 0x33,
  0x34, 0x35, 0x36, 0x37, 0x38, 0x39, 0x2B, 0x2F]

def base64DecMap : List UInt8 :=
  replicate 43 nonAlphabet ++ [0x3E] ++ replicate 3 nonAlphabet ++ [0x3F,
  0x34, 0x35, 0x36, 0x37, 0x38, 0x39, 0x3A, 0x3B,
  0x3C, 0x3D, nonAlphabet, nonAlphabet, nonAlphabet, nonAlphabet, nonAlphabet, nonAlphabet,
  nonAlphabet, 0x00, 0x01, 0x02, 0x03, 0x04, 0x05, 0x06,
  0x07, 0x08, 0x09, 0x0A, 0x0B, 0x0C, 0x0D, 0x0E,
  0x0F, 0x10, 0x11, 0x12, 0x13, 0x14, 0x15, 0x16,
  0x17, 0x18, 0x19, nonAlphabet, nonAlphabet, nonAlphabet, nonAlphabet, nonAlphabet,
  nonAlphabet, 0x1A, 0x1B, 0x1C, 0x1D, 0x1E, 0x1F, 0x20,
  0x21, 0x22, 0x23, 0x24, 0x25, 0x26, 0x27, 0x28,
  0x29, 0x2A, 0x2B, 0x2C, 0x2D, 0x2E, 0x2F, 0x30,
  0x31, 0x32, 0x33, nonAlphabet, nonAlphabet, nonAlphabet, nonAlphabet, nonAlphabet]

def base64URLEncMap : List UInt8 := [
  0x41, 0x42, 0x43, 0x44, 0x45, 0x46, 0x47, 0x48,
  0x49, 0x4A, 0x4B, 0x4C, 0x4D, 0x4E, 0x4F, 0x50,
  0x51, 0x52, 0x53, 0x54, 0x55, 0x56, 0x57, 0x58,
  0x59, 0x5A, 0x61, 0x62, 0x63, 0x64, 0x65, 0x66,
  0x67, 0x68, 0x69, 0x6A, 0x6B, 0x6C, 0x6D, 0x6E,
  0x6F, 0x70, 0x71, 0x72, 0x73, 0x74, 0x75, 0x76,
  0x77, 0x78, 0x79, 0x7A, 0x30, 0x31, 0x32, 0x33,
  0x34, 0x35, 0x36, 0x37, 0x38, 0x39, 0x2D, 0x5F]

def base64URLDecMap : List UInt8 :=
  replicate 45 nonAlphabet ++ [0x3E, nonAlphabet, nonAlphabet,
  0x34, 0x35, 0x36, 0x37, 0x38, 0x39, 0x3A, 0x3B,
  0x3C, 0x3D, nonAlphabet, nonAlphabet, nonAlphabet, nonAlphabet, nonAlphabet, nonAlphabet,
  nonAlphabet, 0x00, 0x01, 0x02, 0x03, 0x04, 0x05, 0x06,
  0x07, 0x08, 0x09, 0x0A, 0x0B, 0x0C, 0x0D, 0x0E,
  0x0F, 0x10, 0x11, 0x12, 0x13, 0x14, 0x15, 0x16,
  0x17, 0x18, 0x19, nonAlphabet, nonAlphabet, nonAlphabet, nonAlphabet, 0x3F,
  nonAlphabet, 0x1A, 0x1B, 0x1C, 0x1D, 0x1E, 0x1F, 0x20,
  0x21, 0x22, 0x23, 0x24, 0x25, 0x26, 0x27, 0x28,
  0x29, 0x2A, 0x2B, 0x2C, 0x2D, 0x2E, 0x2F, 0x30,
  0x31, 0x32, 0x33, nonAlphabet, nonAlphabet, nonAlphabet, nonAlphabet, nonAlphabet]

/-- The two pairs of tables that the callers use. -/
inductive Alphabet where
  | base64
  | base64URL

def Alphabet.encodeMap : Alphabet → List UInt8
  | .base64 => base64EncMap
  | .base64URL => base64URLEncMap

def Alphabet.decodeMap : Alphabet → List UInt8
  | .base64 => base64DecMap
  | .base64URL => base64URLDecMap

def byteAt (bytes : List UInt8) (index : Nat) : UInt8 := bytes.getD index 0

def firstSextet (a : UInt8) : UInt8 := (a >>> 2) &&& 0o77

def secondSextet (a b : UInt8) : UInt8 := ((b >>> 4) &&& (0o17 : UInt8)) ||| ((a <<< 4) &&& (0o77 : UInt8))

def thirdSextet (b c : UInt8) : UInt8 := ((c >>> 6) &&& (0o3 : UInt8)) ||| ((b <<< 2) &&& (0o77 : UInt8))

def fourthSextet (c : UInt8) : UInt8 := c &&& 0o77

def lastOfOne (a : UInt8) : UInt8 := (a <<< 4) &&& 0o77

def lastOfTwo (b : UInt8) : UInt8 := (b <<< 2) &&& 0o77

def firstByte (s t : UInt8) : UInt8 := ((s <<< 2) &&& (255 : UInt8)) ||| ((t >>> 4) &&& (0o3 : UInt8))

def secondByte (t u : UInt8) : UInt8 := ((t <<< 4) &&& (255 : UInt8)) ||| ((u >>> 2) &&& (0o17 : UInt8))

def thirdByte (u v : UInt8) : UInt8 := ((u <<< 6) &&& (255 : UInt8)) ||| (v &&& (0o77 : UInt8))

def encodeAt (encodeMap : List UInt8) (sextet : UInt8) : UInt8 := byteAt encodeMap sextet.toNat

/-- The output vector of the encoder and the next index in it. -/
structure Output where
  out : List UInt8
  didx : Nat

/-- Write a character; none when the index is outside the vector. -/
def Output.put (output : Output) (character : UInt8) : Option Output :=
  if output.didx < output.out.length then some ⟨output.out.set output.didx character,output.didx + 1⟩ else none

def Output.putIf (output : Output) (condition : Bool) (character : UInt8) : Option Output :=
  if condition then output.put character else some output

def uintMax : Nat := 2^32 - 1

def maxInputBufferSize : Nat := uintMax/77*76/4*3 - 2

def lineFeed : UInt8 := 0x0A

def equalsSign : UInt8 := 0x3D

section
variable (encodeMap : List UInt8) (insertLFs : Bool) (data : List UInt8)

/-- Groups of three bytes. The count is an int. -/
def encodeGroups (sidx : Nat) (count : Int) (output : Output) : Option (Nat × Int × Output) :=
  if 1 < data.length ∧ sidx < data.length - 2 then do
    let output ← output.putIf (insertLFs ∧ count ≠ 0 ∧ count.tmod 76 = 0) lineFeed
    let count := if insertLFs then (count+4).bmod (2^32) else count
    let output ← output.put (encodeAt encodeMap (firstSextet (byteAt data sidx)))
    let output ← output.put (encodeAt encodeMap (secondSextet (byteAt data sidx) (byteAt data (sidx+1))))
    let output ← output.put (encodeAt encodeMap (thirdSextet (byteAt data (sidx+1)) (byteAt data (sidx+2))))
    let output ← output.put (encodeAt encodeMap (fourthSextet (byteAt data (sidx+2))))
    encodeGroups (sidx+3) count output
  else some (sidx, count, output)
termination_by data.length - sidx

/-- The one or two bytes after the last group of three. -/
def encodeRest (sidx : Nat) (count : Int) (output : Output) : Option Output :=
  if sidx < data.length then do
    let output ← output.putIf (insertLFs ∧ 0 < count ∧ count.tmod 76 = 0) lineFeed
    let output ← output.put (encodeAt encodeMap (firstSextet (byteAt data sidx)))
    if sidx < data.length - 1 then do
      let output ← output.put (encodeAt encodeMap (secondSextet (byteAt data sidx) (byteAt data (sidx+1))))
      output.put (encodeAt encodeMap (lastOfTwo (byteAt data (sidx+1))))
    else output.put (encodeAt encodeMap (lastOfOne (byteAt data sidx)))
  else some output

def addPadding (output : Output) : List UInt8 :=
  output.out.take output.didx ++ replicate (output.out.length-output.didx) equalsSign

/-- Whether line feeds are inserted, and the length of the output, in 32 bits. -/
def outLength (policy : EncodePolicy) (len : Nat) : Bool × Nat :=
  let outLength := ((len+2)%2^32/3*4)%2^32
  let insertLFs := policy = .insertLFs && 76 < outLength
  (insertLFs, if insertLFs then (outLength+(outLength-1)/76)%2^32 else outLength)

end

/-- The encoder, on any old contents of the vector's memory. -/
def base64EncodeInternal (memory : Nat → UInt8) (data : List UInt8) (policy : EncodePolicy) (encodeMap : List UInt8) :
    Option (List UInt8) :=
  if data.length = 0 then some []
  else if maxInputBufferSize < data.length then some []
  else do
    let (insertLFs, outLength) := outLength policy data.length
    let output : Output := ⟨(range outLength).map memory,0⟩
    let (sidx, count, output) ← encodeGroups encodeMap insertLFs data 0 0 output
    let output ← encodeRest encodeMap insertLFs data sidx count output
    if policy = .url then return output.out.take output.didx else return addPadding output

/-- The sextets in the vector, how many, and the number of equals signs. -/
structure Scan where
  out : List UInt8
  outLength : Nat
  equalsSignCount : Nat

section
variable (whiteSpaceNeutral : Nat → Bool) (options : DecodeOptions) (decodeMap : List UInt8)

def isASCIISpace (character : Nat) : Bool := character ≤ 0x20 && (character = 0x20 || (character ≤ 0xD && 0x9 ≤ character))

def isSpaceOrNewline (character : Nat) : Bool :=
  if character ≤ 0xFF then isASCIISpace character else whiteSpaceNeutral character

/-- One character; the error is the state at which the loop is left. -/
def scanCharacter (scan : Scan) (ch : Nat) : Except Scan Scan :=
  if ch = equalsSign.toNat then
    let scan := { scan with equalsSignCount := scan.equalsSignCount + 1 }
    if options.validatePadding ∧ 2 < scan.equalsSignCount then .error scan else .ok scan
  else
    let decodedCharacter := if ch < 128 then byteAt decodeMap ch else nonAlphabet
    if decodedCharacter ≠ nonAlphabet then
      if scan.equalsSignCount ≠ 0 then .error scan
      else .ok { scan with out := scan.out.set scan.outLength decodedCharacter, outLength := scan.outLength + 1 }
    else if ¬ options.ignoreSpacesAndNewLines ∨ ¬ isSpaceOrNewline whiteSpaceNeutral ch then .error scan
    else .ok scan

/-- Four sextets to three bytes, in the same vector. -/
def decodeGroups (out : List UInt8) (outLength sidx didx : Nat) : List UInt8 × Nat × Nat :=
  if 1 < outLength ∧ didx < outLength - 2 then
    let out := out.set didx (firstByte (byteAt out sidx) (byteAt out (sidx+1)))
    let out := out.set (didx+1) (secondByte (byteAt out (sidx+1)) (byteAt out (sidx+2)))
    let out := out.set (didx+2) (thirdByte (byteAt out (sidx+2)) (byteAt out (sidx+3)))
    decodeGroups out outLength (sidx+4) (didx+3)
  else (out, sidx, didx)
termination_by outLength - didx

def decodeRest (out : List UInt8) (outLength sidx didx : Nat) : List UInt8 :=
  let out :=
    if didx < outLength then out.set didx (firstByte (byteAt out sidx) (byteAt out (sidx+1))) else out
  let didx := didx + 1
  if didx < outLength then
    out.set didx (secondByte (byteAt out (sidx+1)) (byteAt out (sidx+2)))
  else out

/-- On any old contents of the vector's memory: success and the vector. -/
def base64DecodeInternal (memory : Nat → UInt8) (data : List Nat) : Bool × List UInt8 :=
  if data.length = 0 then (true, [])
  else
    match data.foldlM (scanCharacter whiteSpaceNeutral options decodeMap) ⟨(range data.length).map memory,0,0⟩ with
    | .error scan => (false, scan.out.take scan.outLength)
    | .ok scan =>
      let out := scan.out.take scan.outLength
      if scan.outLength = 0 then (scan.equalsSignCount = 0, out)
      else if options.validatePadding ∧ scan.equalsSignCount ≠ 0 ∧ (scan.outLength+scan.equalsSignCount)%4 ≠ 0 then (false, out)
      else if scan.outLength%4 = 1 then (false, out)
      else
        let outLength := scan.outLength - (scan.outLength+3)/4
        if outLength = 0 then (false, out)
        else
          let (out, sidx, didx) := decodeGroups out outLength 0 0
          (true, (decodeRest out outLength sidx didx).take outLength)

end
end WebKit.WTF.Base64
