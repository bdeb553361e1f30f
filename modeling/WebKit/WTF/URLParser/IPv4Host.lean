import Mathlib.Data.List.Basic
import WebKit.WTF.URLParser.Characters

/-! The parser of IPv4 hosts. An iterator is the list of the code points that are left; reports of syntax violations are left out. -/
namespace WebKit.WTF.URLParser
open List

inductive IPv4PieceParsingError where
  | failure
  | overflow
  deriving DecidableEq

inductive IPv4ParsingError where
  | failure
  | notIPv4
  deriving DecidableEq

inductive PieceState where
  | unknownBase
  | decimal
  | octalOrHex
  | octal
  | hex
  deriving DecidableEq

/-- A value of 32 bits; none when it overflows. -/
def checked (value : Nat) : Option Nat := if value < 2^32 then some value else none

def appendDigit (base value digit : Nat) : Option Nat := do
  let value ← checked (value*base)
  checked (value+digit)

/-- The rounds that the loop can stay on a character. -/
def PieceState.rounds : PieceState → Nat
  | .unknownBase => 1
  | .octalOrHex => 1
  | _ => 0

/-- The loop over the characters of a piece: the result and the iterator. -/
def parsePieceLoop (state : PieceState) (value : Nat) (iterator : List Nat) : Except IPv4PieceParsingError Nat × List Nat :=
  match iterator with
  | [] => (.ok value, [])
  | c::rest =>
    if isTabOrNewline c then parsePieceLoop state value rest
    else if c = dot then (.ok value, c::rest)
    else
      match state with
      | .unknownBase =>
        if c = 0x30 then parsePieceLoop .octalOrHex value rest else parsePieceLoop .decimal value (c::rest)
      | .octalOrHex =>
        if c = 0x78 ∨ c = 0x58 then parsePieceLoop .hex value rest else parsePieceLoop .octal value (c::rest)
      | .decimal =>
        if ¬ isASCIIDigit c then (.error .failure, c::rest)
        else
          match appendDigit 10 value (c-0x30) with
          | none => (.error .overflow, c::rest)
          | some value => parsePieceLoop .decimal value rest
      | .octal =>
        if c < 0x30 ∨ 0x37 < c then (.error .failure, c::rest)
        else
          match appendDigit 8 value (c-0x30) with
          | none => (.error .overflow, c::rest)
          | some value => parsePieceLoop .octal value rest
      | .hex =>
        if ¬ isASCIIHexDigit c then (.error .failure, c::rest)
        else
          match appendDigit 16 value (toASCIIHexValue c) with
          | none => (.error .overflow, c::rest)
          | some value => parsePieceLoop .hex value rest
termination_by 2*iterator.length + state.rounds
decreasing_by all_goals simp only [length_cons,PieceState.rounds]; omega

def pow256 (exponent : Nat) : Nat := [1, 256, 256*256, 256*256*256, 256*256*256*256].getD exponent 0

/-- The value of an item that has one. -/
def itemValue (item : Except IPv4PieceParsingError Nat) : Nat := item.toOption.getD 0

end WebKit.WTF.URLParser
