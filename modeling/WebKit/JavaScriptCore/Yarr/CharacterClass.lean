import Mathlib.Init

/-! The character classes of a regular expression: their construction from characters and ranges, with or without regard to
case, and the test whether a character is in a class. -/
namespace WebKit.JavaScriptCore.Yarr

inductive CanonicalizationType where
  | unique
  | set
  | rangeLo
  | rangeHi
  | alternatingAligned
  | alternatingUnaligned
  deriving DecidableEq

/-- Characters that have their equivalents in the same way. -/
structure CanonicalizationRange where
  begin : Int
  last : Int
  value : Int
  type : CanonicalizationType
  deriving DecidableEq

inductive CanonicalMode where
  | ucs2
  | unicode
  deriving DecidableEq

/-- The tables that are generated for a mode. -/
structure CanonicalTables where
  rangeInfo : List CanonicalizationRange
  characterSetInfo : List (List Int)

namespace CanonicalTables

variable (tables : CanonicalTables)

/-- The members of a set, up to the zero that ends it. -/
def canonicalCharacterSetInfo (index : Int) : List Int := tables.characterSetInfo.getD index.toNat []

/-- The search among some ranges. None if it leaves them. -/
def searchRangeInfo (ch : Int) (info entries : Nat) : Option Nat :=
  if entries = 0 then none
  else
    let candidate := entries/2
    match tables.rangeInfo[info + candidate]? with
    | none => none
    | some candidateInfo =>
      if ch < candidateInfo.begin then searchRangeInfo ch info candidate
      else if ch ≤ candidateInfo.last then some (info+candidate)
      else searchRangeInfo ch (info+candidate+1) (entries-(candidate+1))
termination_by entries

/-- The index of the range that a character is in. -/
def canonicalRangeInfoFor (ch : Int) : Option Nat := tables.searchRangeInfo ch 0 tables.rangeInfo.length

end CanonicalTables

def xorOne (n : Int) : Int := if n%2 = 0 then n + 1 else n - 1

def orOne (n : Int) : Int := if n%2 = 0 then n + 1 else n

def getCanonicalPair (info : CanonicalizationRange) (ch : Int) : Int :=
  match info.type with
  | .rangeLo => ch + info.value
  | .rangeHi => ch - info.value
  | .alternatingAligned => xorOne ch
  | .alternatingUnaligned => xorOne (ch-1) + 1
  | _ => 0

/-- The first is in a range, and the second is it or one of its equivalents. -/
def CanonicalizationRange.areEquivalent (tables : CanonicalTables) (info : CanonicalizationRange) (a b : Int) : Bool :=
  match info.type with
  | .unique => a = b
  | .set => (tables.canonicalCharacterSetInfo info.value).contains b
  | .rangeLo => a = b || a + info.value = b
  | .rangeHi => a = b || a - info.value = b
  | .alternatingAligned => orOne a = orOne b
  | .alternatingUnaligned => orOne (a-1) = orOne (b-1)

def areCanonicallyEquivalent (tables : CanonicalTables) (a b : Int) : Bool :=
  match (tables.canonicalRangeInfoFor a).bind (tables.rangeInfo[·]?) with
  | none => false
  | some info => info.areEquivalent tables a b

def isASCII (ch : Int) : Bool := 0 ≤ ch && ch ≤ 0x7F

def isASCIIUpper (ch : Int) : Bool := 0x41 ≤ ch && ch ≤ 0x5A

def isASCIILower (ch : Int) : Bool := 0x61 ≤ ch && ch ≤ 0x7A

def isASCIIAlpha (ch : Int) : Bool := isASCIIUpper ch || isASCIILower ch

def toASCIIUpper (ch : Int) : Int := if isASCIILower ch then ch - 0x20 else ch

def toASCIILower (ch : Int) : Int := if isASCIIUpper ch then ch + 0x20 else ch

structure CharacterRange where
  begin : Int
  last : Int
  deriving DecidableEq

/-- Join a range with the ranges after it that it overlaps or touches. -/
def mergeRangesFrom (range : CharacterRange) : List CharacterRange → List CharacterRange
  | [] => [range]
  | next::ranges =>
    if next.begin ≤ range.last + 1 then mergeRangesFrom ⟨range.begin,max range.last next.last⟩ ranges
    else range :: next::ranges

def addSortedRange (lo hi : Int) : List CharacterRange → List CharacterRange
  | [] => [⟨lo,hi⟩]
  | range::ranges =>
    if hi < range.begin then
      if hi = range.begin - 1 then ⟨lo,range.last⟩ :: ranges else ⟨lo,hi⟩ :: range::ranges
    else if lo ≤ range.last + 1 then mergeRangesFrom ⟨min range.begin lo,max range.last hi⟩ ranges
    else range :: addSortedRange lo hi ranges

/-- The others, and a range if the character was next to one of them. -/
structure AddedCharacter where
  characters : List Int
  range : Option CharacterRange
  deriving DecidableEq

/-- The binary chop for the position of a character. -/
def chop (characters : List Int) (ch : Int) (pos range : Nat) : AddedCharacter :=
  if range = 0 then ⟨characters.insertIdx pos ch,none⟩
  else
    let index := range/2
    let val := characters.getD (pos+index) 0 - ch
    if val = 0 then ⟨characters,none⟩
    else if val > 0 then
      if val = 1 then
        let removed := characters.eraseIdx (pos+index)
        if pos + index > 0 ∧ removed[pos + index - 1]? = some (ch-1) then
          ⟨removed.eraseIdx (pos+index-1),some ⟨ch - 1,ch + 1⟩⟩
        else ⟨removed,some ⟨ch,ch + 1⟩⟩
      else chop characters ch pos index
    else if val = -1 then
      let removed := characters.eraseIdx (pos+index)
      -- The character after the removed one is at its index now; the one after that is looked at.
      if removed[pos + index + 1]? = some (ch+1) then ⟨removed.eraseIdx (pos+index+1),some ⟨ch - 1,ch + 1⟩⟩
      else ⟨removed,some ⟨ch - 1,ch⟩⟩
    else chop characters ch (pos+index+1) (range-(index+1))
termination_by range

structure CharacterClassConstructor where
  matchesASCII : List Int
  rangesASCII : List CharacterRange
  matchesUnicode : List Int
  rangesUnicode : List CharacterRange
  hasNonBMPCharacters : Bool
  deriving DecidableEq

namespace CharacterClassConstructor

def empty : CharacterClassConstructor := ⟨[],[],[],[],false⟩

variable (constructor : CharacterClassConstructor)

def addRangeASCII (lo hi : Int) : CharacterClassConstructor :=
  { constructor with
    rangesASCII := addSortedRange lo hi constructor.rangesASCII
    hasNonBMPCharacters := constructor.hasNonBMPCharacters || hi > 0xFFFF }

def addRangeUnicode (lo hi : Int) : CharacterClassConstructor :=
  { constructor with
    rangesUnicode := addSortedRange lo hi constructor.rangesUnicode
    hasNonBMPCharacters := constructor.hasNonBMPCharacters || hi > 0xFFFF }

/-- The range that a character was joined to is one of the character's side. -/
def addJoined (ch : Int) : Option CharacterRange → CharacterClassConstructor
  | none => constructor
  | some range =>
    if isASCII ch then constructor.addRangeASCII range.begin range.last else constructor.addRangeUnicode range.begin range.last

def addASCII (ch : Int) : CharacterClassConstructor :=
  let added := chop constructor.matchesASCII ch 0 constructor.matchesASCII.length
  { constructor with
    matchesASCII := added.characters
    hasNonBMPCharacters := constructor.hasNonBMPCharacters || ch > 0xFFFF }.addJoined ch added.range

def addUnicode (ch : Int) : CharacterClassConstructor :=
  let added := chop constructor.matchesUnicode ch 0 constructor.matchesUnicode.length
  { constructor with
    matchesUnicode := added.characters
    hasNonBMPCharacters := constructor.hasNonBMPCharacters || ch > 0xFFFF }.addJoined ch added.range

def addSorted (ch : Int) : CharacterClassConstructor :=
  if isASCII ch then constructor.addASCII ch else constructor.addUnicode ch

variable (tables : CanonicalTables) (isCaseInsensitive : Bool) (canonicalMode : CanonicalMode)

def putUnicodeIgnoreCase (ch : Int) (info : CanonicalizationRange) : CharacterClassConstructor :=
  if info.type = .set then
    (tables.canonicalCharacterSetInfo info.value).foldl addSorted constructor
  else (constructor.addSorted ch).addSorted (getCanonicalPair info ch)

def putChar (ch : Int) : CharacterClassConstructor :=
  if !isCaseInsensitive then constructor.addSorted ch
  else if canonicalMode = .ucs2 ∧ isASCII ch then
    if isASCIIAlpha ch then (constructor.addASCII (toASCIIUpper ch)).addASCII (toASCIILower ch) else constructor.addASCII ch
  else
    match (tables.canonicalRangeInfoFor ch).bind (tables.rangeInfo[·]?) with
    | none => constructor
    | some info =>
      if info.type = .unique then constructor.addSorted ch else constructor.putUnicodeIgnoreCase tables ch info

def putRangeASCII (lo asciiHi : Int) : CharacterClassConstructor :=
  let constructor := constructor.addRangeASCII lo asciiHi
  if !isCaseInsensitive then constructor
  else
    let constructor :=
      if lo ≤ 0x5A ∧ asciiHi ≥ 0x41 then constructor.addRangeASCII (max lo 0x41+0x20) (min asciiHi 0x5A+0x20) else constructor
    if lo ≤ 0x7A ∧ asciiHi ≥ 0x61 then constructor.addRangeASCII (max lo 0x61-0x20) (min asciiHi 0x7A-0x20) else constructor

/-- The members of a set as 16-bit characters, up to the first one that is zero. -/
def shortCharacters (set : List Int) : List Int := (set.map (· % 0x10000)).takeWhile (· ≠ 0)

/-- The equivalents of a range's characters that are in a row of the table. -/
def putRangeInfo (info : CanonicalizationRange) (lo last : Int) : CharacterClassConstructor :=
  match info.type with
  | .unique => constructor
  | .set => (shortCharacters (tables.canonicalCharacterSetInfo info.value)).foldl addUnicode constructor
  | .rangeLo => constructor.addRangeUnicode (lo+info.value) (last+info.value)
  | .rangeHi => constructor.addRangeUnicode (lo-info.value) (last-info.value)
  | .alternatingAligned =>
    let constructor := if lo%2 = 1 then constructor.addRangeUnicode (lo-1) (lo-1) else constructor
    if last%2 = 0 then constructor.addRangeUnicode (last+1) (last+1) else constructor
  | .alternatingUnaligned =>
    let constructor := if lo%2 = 0 then constructor.addRangeUnicode (lo-1) (lo-1) else constructor
    if last%2 = 1 then constructor.addRangeUnicode (last+1) (last+1) else constructor

/-- The walk through the rows from the first character's on. -/
def putRangeInfos (hi : Int) : CharacterClassConstructor → List CanonicalizationRange → Int → CharacterClassConstructor
  | constructor, [], _ => constructor
  | constructor, info::infos, lo =>
    let last := min info.last hi
    let constructor := constructor.putRangeInfo tables info lo last
    if hi = last then constructor
    else putRangeInfos hi constructor infos ((infos.head?.map CanonicalizationRange.begin).getD 0)

def putRangeUnicode (lo hi : Int) : CharacterClassConstructor :=
  let constructor := constructor.addRangeUnicode lo hi
  if !isCaseInsensitive then constructor
  else
    match tables.canonicalRangeInfoFor lo with
    | none => constructor
    | some index => constructor.putRangeInfos tables hi (tables.rangeInfo.drop index) lo

def putRange (lo hi : Int) : CharacterClassConstructor :=
  let constructor := if isASCII lo then constructor.putRangeASCII isCaseInsensitive lo (min hi 0x7F) else constructor
  if isASCII hi then constructor else constructor.putRangeUnicode tables isCaseInsensitive (max lo 0x80) hi

end CharacterClassConstructor

/-- The first index from another one on at which a character is not below a bound. -/
def skipBelow (characters : List Int) (bound : Int) (index : Nat) : Nat :=
  index + ((characters.drop index).takeWhile (· < bound)).length

theorem le_skipBelow (cs : List Int) (b : Int) (index : Nat) : index ≤ skipBelow cs b index :=
  Nat.le_add_right _ _

/-- Move a character that is right below a range into it. -/
def joinBelow (characters : List Int) (range : CharacterRange) (matchesIndex : Nat) : List Int × CharacterRange × Nat :=
  let index := skipBelow characters (range.begin-1) matchesIndex
  if characters[index]? = some (range.begin-1) then (characters.eraseIdx index, ⟨range.begin - 1,range.last⟩, index)
  else (characters, range, index)

theorem joinBelow_le (cs : List Int) (r : CharacterRange) (m : Nat) :
    (joinBelow cs r m).1.length ≤ cs.length ∧
      m ≤ (joinBelow cs r m).2.2 := by
  rw [joinBelow]
  split
  · exact ⟨List.length_eraseIdx_le _ _,le_skipBelow _ _ _⟩
  · exact ⟨Nat.le_refl _,le_skipBelow _ _ _⟩

/-- Move characters next to a range into it. The index of the range is never advanced. -/
def coalesceMatchesAndRanges (characters : List Int) (ranges : List CharacterRange) (matchesIndex : Nat) :
    List Int × List CharacterRange :=
  match ranges with
  | [] => (characters, [])
  | range::ranges =>
    if _h : matchesIndex < characters.length then
      let joined := joinBelow characters range matchesIndex
      let next := skipBelow joined.1 (joined.2.1.last+1) joined.2.2
      if _hnext : next < joined.1.length then
        if joined.1[next]? = some (joined.2.1.last+1) then
          coalesceMatchesAndRanges (joined.1.eraseIdx next)
            (mergeRangesFrom ⟨joined.2.1.begin,joined.2.1.last + 1⟩ ranges) next
        else coalesceMatchesAndRanges joined.1 (joined.2.1::ranges) (next+1)
      else (joined.1, joined.2.1::ranges)
    else (characters, range::ranges)
termination_by characters.length - matchesIndex
decreasing_by
  all_goals
    have hjoined := joinBelow_le characters range matchesIndex
    have hnext := le_skipBelow (joinBelow characters range matchesIndex).1
      ((joinBelow characters range matchesIndex).2.1.last+1) (joinBelow characters range matchesIndex).2.2
    have hlt : skipBelow (joinBelow characters range matchesIndex).1
      ((joinBelow characters range matchesIndex).2.1.last+1) (joinBelow characters range matchesIndex).2.2 <
        (joinBelow characters range matchesIndex).1.length := _hnext
  · rw [List.length_eraseIdx_of_lt hlt]
    omega
  · omega

structure CharacterClass where
  matchesASCII : List Int
  rangesASCII : List CharacterRange
  matchesUnicode : List Int
  rangesUnicode : List CharacterRange
  hasNonBMPCharacters : Bool
  anyCharacter : Bool
  deriving DecidableEq

def CharacterClassConstructor.charClass (constructor : CharacterClassConstructor) : CharacterClass :=
  let (matchesASCII, rangesASCII) := coalesceMatchesAndRanges constructor.matchesASCII constructor.rangesASCII 0
  let (matchesUnicode, rangesUnicode) := coalesceMatchesAndRanges constructor.matchesUnicode constructor.rangesUnicode 0
  ⟨matchesASCII,rangesASCII,matchesUnicode,rangesUnicode,constructor.hasNonBMPCharacters,
    matchesASCII = [] && matchesUnicode = [] && rangesASCII = [⟨0,0x7F⟩] && rangesUnicode = [⟨0x80,0x10FFFF⟩]⟩

/-- The binary search for a matching element, where a character can be below an element. -/
def binarySearch {α : Type} (matching below : α → Bool) (elements : List α) (low high : Nat) : Bool :=
  if low ≤ high then
    let mid := low + (high-low)/2
    match elements[mid]? with
    | none => false
    | some element =>
      if matching element then true
      else if below element then if mid = low then false else binarySearch matching below elements low (mid-1)
      else binarySearch matching below elements (mid+1) high
  else false
termination_by high + 1 - low

def binarySearchMatches (ch : Int) (characters : List Int) : Bool :=
  binarySearch (ch - · = 0) (ch - · < 0) characters 0 (characters.length-1)

def binarySearchRanges (ch : Int) (ranges : List CharacterRange) : Bool :=
  binarySearch (fun range => ch - range.begin ≥ 0 && ch ≤ range.last) (fun range => ch - range.begin < 0) ranges 0
    (ranges.length-1)

def thresholdForBinarySearch : Nat := 6

def searchMatches (ch : Int) (characters : List Int) : Bool :=
  if characters.length > thresholdForBinarySearch then binarySearchMatches ch characters
  else characters.any (ch = ·)

def searchRanges (ch : Int) (ranges : List CharacterRange) : Bool :=
  if ranges.length > thresholdForBinarySearch then binarySearchRanges ch ranges
  else ranges.any fun range => range.begin ≤ ch && ch ≤ range.last

def testCharacterClass (characterClass : CharacterClass) (ch : Int) : Bool :=
  if characterClass.anyCharacter then true
  else if !isASCII ch then searchMatches ch characterClass.matchesUnicode || searchRanges ch characterClass.rangesUnicode
  else searchMatches ch characterClass.matchesASCII || searchRanges ch characterClass.rangesASCII

end WebKit.JavaScriptCore.Yarr
