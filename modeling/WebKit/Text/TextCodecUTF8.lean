import WebKit.Base.Unicode

/-! The decoder for UTF-8, which keeps a partial sequence between calls. It writes 8-bit characters until one does not fit,
and goes on with 16 bits. A source is what is left of the bytes. -/
namespace WebKit.Text
open List

def replacementCharacter : UInt16 := 0xFFFD

def isASCII (b : UInt8) : Bool := b < 0x80

def nonASCIISequenceLength (firstByte : UInt8) : Nat :=
  if 0xC2 ≤ firstByte ∧ firstByte ≤ 0xDF then 2
  else if 0xE0 ≤ firstByte ∧ firstByte ≤ 0xEF then 3
  else if 0xF0 ≤ firstByte ∧ firstByte ≤ 0xF4 then 4
  else 0

/-- The bytes that may follow the first byte of a sequence of three. -/
def isSecondOfThree (first second : UInt8) : Bool :=
  if first = 0xE0 then 0xA0 ≤ second && second ≤ 0xBF
  else if first = 0xED then 0x80 ≤ second && second ≤ 0x9F
  else 0x80 ≤ second && second ≤ 0xBF

/-- The bytes that may follow the first byte of a sequence of four. -/
def isSecondOfFour (first second : UInt8) : Bool :=
  if first = 0xF0 then 0x90 ≤ second && second ≤ 0xBF
  else if first = 0xF4 then 0x80 ≤ second && second ≤ 0x8F
  else 0x80 ≤ second && second ≤ 0xBF

def isContinuation (b : UInt8) : Bool := 0x80 ≤ b && b ≤ 0xBF

/-- A sequence's character, or none for the source's nonCharacter, and the number of bytes to drop. -/
def decodeNonASCIISequence (sequence : List UInt8) (length : Nat) : Option Nat × Nat :=
  let s (i : Nat) : UInt8 := sequence.getD i 0
  if length = 2 then
    if isContinuation (s 1) then (some (((s 0).toNat <<< 6) + (s 1).toNat - 0x3080), 2) else (none, 1)
  else if length = 3 then
    if !isSecondOfThree (s 0) (s 1) then (none, 1)
    else if !isContinuation (s 2) then (none, 2)
    else (some (((s 0).toNat <<< 12) + ((s 1).toNat <<< 6) + (s 2).toNat - 0xE2080), 3)
  else
    if !isSecondOfFour (s 0) (s 1) then (none, 1)
    else if !isContinuation (s 2) then (none, 2)
    else if !isContinuation (s 3) then (none, 3)
    else (some (((s 0).toNat <<< 18) + ((s 1).toNat <<< 12) + ((s 2).toNat <<< 6) + (s 3).toNat - 0x3C82080), 4)

def appendCharacter (character : Nat) : List UInt16 :=
  if character ≤ 0xFFFF then [.ofNat character]
  else [.ofNat ((character >>> 10) + 0xD7C0), .ofNat ((character &&& 0x3FF) ||| 0xDC00)]

/-- What a part of a call wrote, what it left of the source, its partial sequence, whether it saw an error and whether 16-bit
characters go on. -/
@[ext] structure Progress where
  out : List UInt16
  source : List UInt8
  partialSequence : List UInt8
  sawError : Bool
  upConvertTo16Bit : Bool
  deriving DecidableEq

/-- Progress after some characters that were written before. -/
def Progress.after (out : List UInt16) (sawError : Bool) (progress : Progress) : Progress :=
  { progress with out := out ++ progress.out, sawError := sawError || progress.sawError }

theorem nonASCIISequenceLength_cases (b : UInt8) : nonASCIISequenceLength b = 0 ∨ nonASCIISequenceLength b = 2 ∨
    nonASCIISequenceLength b = 3 ∨ nonASCIISequenceLength b = 4 := by
  unfold nonASCIISequenceLength
  split_ifs <;> simp

theorem decodeNonASCIISequence_count (s : List UInt8) {length : Nat} (h : length = 2 ∨ length = 3 ∨ length = 4) :
    (∃ c, decodeNonASCIISequence s length = (some c, length)) ∨
      ∃ cn, decodeNonASCIISequence s length = (none, cn) ∧ 0 < cn ∧ cn < length := by
  rcases h with rfl | rfl | rfl <;> simp only [decodeNonASCIISequence] <;> split_ifs <;> simp_all

theorem decodeNonASCIISequence_pos (s : List UInt8) {b : UInt8} (h : nonASCIISequenceLength b ≠ 0) :
    0 < (decodeNonASCIISequence s (nonASCIISequenceLength b)).2 ∧
      (decodeNonASCIISequence s (nonASCIISequenceLength b)).2 ≤ nonASCIISequenceLength b := by
  have hcs := (nonASCIISequenceLength_cases b).resolve_left h
  rcases decodeNonASCIISequence_count s hcs with ⟨c,hc⟩ | ⟨cn,hc,hp,hl⟩
  · rw [hc]
    exact ⟨by omega,Nat.le_refl _⟩
  · rw [hc]
    exact ⟨hp,Nat.le_of_lt hl⟩

private theorem length_drop_filled {b : UInt8} (r s : List UInt8) (h : nonASCIISequenceLength b ≠ 0) :
    let missing := nonASCIISequenceLength b - (b::r).length
    let filled := b :: r ++ s.take missing
    (filled.drop (decodeNonASCIISequence filled (nonASCIISequenceLength b)).2).length + (s.drop missing).length <
      (b::r).length + s.length := by
  intro missing filled
  have hp := (decodeNonASCIISequence_pos filled h).1
  have hf : filled.length + (s.drop missing).length = (b::r).length + s.length := by
    simp only [filled,length_take,length_drop,length_append]
    omega
  have hn : 0 < filled.length := Nat.succ_pos _
  rw [length_drop]
  omega

/-- The overload for 8-bit characters, left for 16-bit ones with what it wrote. -/
def handlePartialSequence8 (flush : Bool) (partialSequence source : List UInt8) : Progress :=
  match partialSequence with
  | [] => ⟨[],source,[],false,false⟩
  | b::rest =>
    if isASCII b then (handlePartialSequence8 flush rest source).after [b.toUInt16] false
    else if _hcount : nonASCIISequenceLength b = 0 then ⟨[],source,b::rest,false,true⟩
    else if nonASCIISequenceLength b > (b::rest).length + source.length then
      if !flush then ⟨[],source,b :: rest ++ source,false,false⟩ else ⟨[],source,b::rest,false,true⟩
    else
      let missing := nonASCIISequenceLength b - (b::rest).length
      let filled := b :: rest ++ source.take missing
      match (decodeNonASCIISequence filled (nonASCIISequenceLength b)).1 with
      | none => ⟨[],source.drop missing,filled,false,true⟩
      | some character =>
        if character > 0xFF then ⟨[],source.drop missing,filled,false,true⟩
        -- The bytes that are left are not moved to the front of the buffer.
        else (handlePartialSequence8 flush (filled.take (filled.length-nonASCIISequenceLength b)) (source.drop missing)).after
          [.ofNat character] false
termination_by partialSequence.length + source.length
decreasing_by
  · simp only [length_cons]
    omega
  · simp only [length_take,length_drop,length_append,length_cons]
    omega

/-- The overload for 16-bit characters. -/
def handlePartialSequence16 (flush stopOnError : Bool) (partialSequence source : List UInt8) : Progress :=
  match partialSequence with
  | [] => ⟨[],source,[],false,false⟩
  | b::rest =>
    if isASCII b then (handlePartialSequence16 flush stopOnError rest source).after [b.toUInt16] false
    else if _hcount : nonASCIISequenceLength b = 0 then
      if stopOnError then ⟨[],source,b::rest,true,false⟩
      else (handlePartialSequence16 flush stopOnError rest source).after [replacementCharacter] true
    else if nonASCIISequenceLength b > (b::rest).length + source.length then
      if !flush then ⟨[],source,b :: rest ++ source,false,false⟩
      else if stopOnError then ⟨[],source,b::rest,true,false⟩
      else ⟨[replacementCharacter],[],[],true,false⟩
    else
      let missing := nonASCIISequenceLength b - (b::rest).length
      let filled := b :: rest ++ source.take missing
      let decoded := decodeNonASCIISequence filled (nonASCIISequenceLength b)
      match decoded.1 with
      | none =>
        if stopOnError then ⟨[],source.drop missing,filled,true,false⟩
        else (handlePartialSequence16 flush stopOnError (filled.drop decoded.2) (source.drop missing)).after
          [replacementCharacter] true
      | some character =>
        -- The bytes that are left are not moved to the front of the buffer.
        (handlePartialSequence16 flush stopOnError (filled.take (filled.length-nonASCIISequenceLength b))
          (source.drop missing)).after (appendCharacter character) false
termination_by partialSequence.length + source.length
decreasing_by
  · simp only [length_cons]
    omega
  · simp only [length_cons]
    omega
  · exact length_drop_filled rest source _hcount
  · simp only [length_take,length_drop,length_append,length_cons]
    omega

def machineWordSize : Nat := 8

/-- The bytes of the machine words at the front, up to a word that is not all ASCII. -/
def asciiWords (source : List UInt8) : Nat :=
  if machineWordSize ≤ source.length ∧ (source.take machineWordSize).all isASCII then
    machineWordSize + asciiWords (source.drop machineWordSize)
  else 0
termination_by source.length
decreasing_by
  simp only [length_drop,machineWordSize] at *
  omega

/-- The bytes that the ASCII fast path copies in a round. A source ends at the given address. -/
def asciiCount (endAddress : Nat) (source : List UInt8) : Nat :=
  if (endAddress-source.length)%machineWordSize = 0 then
    match source.drop (asciiWords source) with
    | [] => asciiWords source
    | b::_ => if !isASCII b then asciiWords source else asciiWords source + 1
  else 1

theorem asciiCount_pos (es : Nat) {b : UInt8} (r : List UInt8) (h : isASCII b) :
    0 < asciiCount es (b::r) := by
  unfold asciiCount
  by_cases hw : asciiWords (b::r) = 0
  · simp [hw,h]
  · split
    · split
      · omega
      · split_ifs <;> omega
    · omega

def sourceLoop8 (stopOnError : Bool) (endAddress : Nat) (source : List UInt8) : Progress :=
  match source with
  | [] => ⟨[],[],[],false,false⟩
  | b::rest =>
    if _hascii : isASCII b then
      let count := asciiCount endAddress (b::rest)
      (sourceLoop8 stopOnError endAddress ((b::rest).drop count)).after (((b::rest).take count).map UInt8.toUInt16) false
    else if _hcount : nonASCIISequenceLength b = 0 then ⟨[],b::rest,[],true,!stopOnError⟩
    else if nonASCIISequenceLength b > (b::rest).length then ⟨[],[],b::rest,false,false⟩
    else
      match (decodeNonASCIISequence (b::rest) (nonASCIISequenceLength b)).1 with
      | none => ⟨[],b::rest,[],true,!stopOnError⟩
      | some character =>
        if character > 0xFF then ⟨[],b::rest,[],false,true⟩
        else (sourceLoop8 stopOnError endAddress ((b::rest).drop (nonASCIISequenceLength b))).after
          [.ofNat character] false
termination_by source.length
decreasing_by
  · have := asciiCount_pos endAddress rest _hascii
    simp only [length_drop,length_cons]
    omega
  · simp only [length_drop,length_cons]
    omega

def sourceLoop16 (stopOnError : Bool) (endAddress : Nat) (source : List UInt8) : Progress :=
  match source with
  | [] => ⟨[],[],[],false,false⟩
  | b::rest =>
    if _hascii : isASCII b then
      let count := asciiCount endAddress (b::rest)
      (sourceLoop16 stopOnError endAddress ((b::rest).drop count)).after (((b::rest).take count).map UInt8.toUInt16) false
    else if _hcount : nonASCIISequenceLength b = 0 then
      if stopOnError then ⟨[],b::rest,[],true,false⟩
      else (sourceLoop16 stopOnError endAddress rest).after [replacementCharacter] true
    else if nonASCIISequenceLength b > (b::rest).length then ⟨[],[],b::rest,false,false⟩
    else
      let decoded := decodeNonASCIISequence (b::rest) (nonASCIISequenceLength b)
      match decoded.1 with
      | none =>
        if stopOnError then ⟨[],b::rest,[],true,false⟩
        else (sourceLoop16 stopOnError endAddress ((b::rest).drop decoded.2)).after [replacementCharacter] true
      | some character =>
        (sourceLoop16 stopOnError endAddress ((b::rest).drop (nonASCIISequenceLength b))).after
          (appendCharacter character) false
termination_by source.length
decreasing_by
  · have := asciiCount_pos endAddress rest _hascii
    simp only [length_drop,length_cons]
    omega
  · simp only [length_cons]
    omega
  · have := (decodeNonASCIISequence_pos (b::rest) _hcount).1
    simp only [length_drop,length_cons]
    omega
  · simp only [length_drop,length_cons]
    omega

private theorem length_source_handlePartialSequence8 (f : Bool) (p s : List UInt8) :
    (handlePartialSequence8 f p s).source.length ≤ s.length := by
  fun_induction handlePartialSequence8 f p s <;> simp_all [Progress.after]
  omega

private theorem length_source_handlePartialSequence16 (f s : Bool) (p sr : List UInt8) :
    (handlePartialSequence16 f s p sr).source.length ≤ sr.length := by
  fun_induction handlePartialSequence16 f s p sr <;> simp_all [Progress.after] <;> omega

private theorem partialSequence_sourceLoop8 (s : Bool) (es : Nat) (sr : List UInt8)
    (h : (sourceLoop8 s es sr).partialSequence ≠ []) :
    (sourceLoop8 s es sr).source.length < sr.length := by
  fun_induction sourceLoop8 s es sr with
  | case2 b r ha cn ih => exact Nat.lt_of_lt_of_le (ih h) (drop_sublist _ _).length_le
  | case7 b r ha hc hl c hs hle ih => exact Nat.lt_of_lt_of_le (ih h) (drop_sublist _ _).length_le
  | _ => simp_all

private theorem partialSequence_sourceLoop16 (s : Bool) (es : Nat) (sr : List UInt8)
    (h : (sourceLoop16 s es sr).partialSequence ≠ []) :
    (sourceLoop16 s es sr).source.length < sr.length := by
  fun_induction sourceLoop16 s es sr with
  | case2 b r ha cn ih => exact Nat.lt_of_lt_of_le (ih h) (drop_sublist _ _).length_le
  | case4 b r ha hc hs ih => exact Nat.lt_succ_of_lt (ih h)
  | case7 b r ha hc hl d hn hs ih => exact Nat.lt_of_lt_of_le (ih h) (drop_sublist _ _).length_le
  | case8 b r ha hc hl d c hsm ih =>
    exact Nat.lt_of_lt_of_le (ih h) (drop_sublist _ _).length_le
  | _ => simp_all

def decode8 (flush stopOnError : Bool) (endAddress : Nat) (partialSequence source : List UInt8) : Progress :=
  let handled := handlePartialSequence8 flush partialSequence source
  if handled.upConvertTo16Bit then { handled with out := [] }
  else if handled.partialSequence ≠ [] then handled
  else
    let looped := (sourceLoop8 stopOnError endAddress handled.source).after handled.out false
    if looped.upConvertTo16Bit then looped
    else if flush ∧ looped.partialSequence ≠ [] then
      (decode8 flush stopOnError endAddress looped.partialSequence looped.source).after looped.out looped.sawError
    else looped
termination_by source.length
decreasing_by
  have hhandled := length_source_handlePartialSequence8 flush partialSequence source
  have hlooped := partialSequence_sourceLoop8 stopOnError endAddress handled.source (by simp_all [looped,Progress.after])
  simp_all [looped,handled,Progress.after]
  omega

def decode16 (flush stopOnError : Bool) (endAddress : Nat) (partialSequence source : List UInt8) : Progress :=
  let handled := handlePartialSequence16 flush stopOnError partialSequence source
  if handled.partialSequence ≠ [] then handled
  else
    let looped := (sourceLoop16 stopOnError endAddress handled.source).after handled.out handled.sawError
    if flush ∧ looped.partialSequence ≠ [] then
      (decode16 flush stopOnError endAddress looped.partialSequence looped.source).after looped.out looped.sawError
    else looped
termination_by source.length
decreasing_by
  have hhandled := length_source_handlePartialSequence16 flush stopOnError partialSequence source
  have hlooped := partialSequence_sourceLoop16 stopOnError endAddress handled.source (by simp_all [looped,Progress.after])
  simp_all [looped,handled,Progress.after]
  omega

/-- The text, the partial sequence that is kept and whether an error was seen. The bytes end at an address. -/
def decode (flush stopOnError : Bool) (endAddress : Nat) (partialSequence bytes : List UInt8) :
    List UInt16 × List UInt8 × Bool :=
  let narrow := decode8 flush stopOnError endAddress partialSequence bytes
  if narrow.upConvertTo16Bit then
    let wide := (decode16 flush stopOnError endAddress narrow.partialSequence narrow.source).after narrow.out narrow.sawError
    (wide.out, wide.partialSequence, wide.sawError)
  else (narrow.out, narrow.partialSequence, narrow.sawError)

end WebKit.Text
