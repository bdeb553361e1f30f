import WebKit.WTF.URLParser.Characters

/-! The quoted-printable encoding of bytes (QuotedPrintable.cpp). -/
namespace WebKit.Text
open List WTF.URLParser

/-- The length of the line ending that a text starts with. -/
def lengthOfLineEnding : List UInt8 → Nat
  | [] => 0
  | c::rest =>
    if c = 0x0A then 1
    else if c = 0x0D then
      if rest.head? ≠ some 0x0A then 1 else 2
    else 0

def requiresEncoding (c : UInt8) (rest : List UInt8) : Bool :=
  (c < 0x20 || c > 0x7E || c = 0x3D) && c ≠ 0x09 ||
    (c = 0x09 || c = 0x20) && (rest.isEmpty || lengthOfLineEnding rest ≠ 0)

def encodedCharacter (c : UInt8) (rest : List UInt8) : List UInt8 :=
  if requiresEncoding c rest then [0x3D, upperNibbleToASCIIHexDigit c, lowerNibbleToASCIIHexDigit c] else [c]

def maximumLineLength : Nat := 76

/-- The loop of `quotedPrintableEncode`, with the length of the line so far. -/
def encodeFrom (currentLineLength : Nat) : List UInt8 → List UInt8
  | [] => []
  | c::rest =>
    if !rest.isEmpty ∧ lengthOfLineEnding (c::rest) = 1 then 0x0D::0x0A::encodeFrom 0 rest
    else if lengthOfLineEnding (c::rest) = 2 then
      match rest with
      | [] => []
      | _::rest => 0x0D::0x0A::encodeFrom 0 rest
    else
      let encoded := encodedCharacter c rest
      -- one more for the mark of a soft line break
      let lengthOfEncodedCharacter := encoded.length + if rest.isEmpty then 0 else 1
      if currentLineLength+lengthOfEncodedCharacter > maximumLineLength then
        0x3D::0x0D::0x0A::(encoded ++ encodeFrom encoded.length rest)
      else encoded ++ encodeFrom (currentLineLength+encoded.length) rest

def quotedPrintableEncode (input : List UInt8) : List UInt8 := encodeFrom 0 input

def quotedPrintableDecode : List UInt8 → List UInt8
  | c::upper::lower::rest =>
    if c ≠ 0x3D then c::quotedPrintableDecode (upper::lower::rest)
    else if upper = 0x0D ∧ lower = 0x0A then quotedPrintableDecode rest
    else if !isASCIIHexDigit upper.toNat || !isASCIIHexDigit lower.toNat then
      0x3D::upper::lower::quotedPrintableDecode rest
    else toASCIIHexByte upper lower::quotedPrintableDecode rest
  | rest => rest

/-- Every line break, other than a final byte alone, as CR LF. -/
def breaksAsCRLF : List UInt8 → List UInt8
  | [] => []
  | [c] => [c]
  | c::d::rest =>
    if c = 0x0D ∧ d = 0x0A then 0x0D::0x0A::breaksAsCRLF rest
    else if c = 0x0D ∨ c = 0x0A then 0x0D::0x0A::breaksAsCRLF (d::rest)
    else c::breaksAsCRLF (d::rest)

/-- The lines of an encoded text, after the start of one. -/
def linesFrom (line : List UInt8) : List UInt8 → List (List UInt8)
  | [] => [line]
  | [c] => [line ++ [c]]
  | c::d::rest => if c = 0x0D ∧ d = 0x0A then line::linesFrom [] rest else linesFrom (line ++ [c]) (d::rest)

theorem decode_cons {c : UInt8} (h : c ≠ 0x3D) (rest : List UInt8) :
    quotedPrintableDecode (c::rest) = c::quotedPrintableDecode rest := by
  match rest with
  | [] => rfl
  | [_] => rfl
  | x::y::rest => rw [quotedPrintableDecode,if_pos h]

private theorem decode_softBreak (rest : List UInt8) :
    quotedPrintableDecode (0x3D::0x0D::0x0A::rest) = quotedPrintableDecode rest := by
  simp [quotedPrintableDecode]

/-- Every encoded character is decoded; an escape is not taken for a soft break. -/
theorem decode_encodedCharacter (c : UInt8) (next rest : List UInt8) :
    quotedPrintableDecode (encodedCharacter c next ++ rest) = c::quotedPrintableDecode rest := by
  rw [encodedCharacter]
  split
  · have ⟨hu,hl,he⟩ := toASCIIHexByte_digits c
    have hn : upperNibbleToASCIIHexDigit c ≠ 0x0D := fun h => absurd (h ▸ hu) (by decide)
    simp [quotedPrintableDecode,hu,hl,he,hn]
  next hr => exact decode_cons (fun h => by simp [requiresEncoding,h] at hr) rest

theorem lengthOfLineEnding_singleton (c : UInt8) : lengthOfLineEnding [c] ≠ 2 := by
  simp only [lengthOfLineEnding]
  split_ifs <;> simp_all

private theorem breaksAsCRLF_cons {c : UInt8} {rest : List UInt8} (h : ¬ (!rest.isEmpty ∧ lengthOfLineEnding (c::rest) = 1))
    (h2 : ¬ lengthOfLineEnding (c::rest) = 2) : breaksAsCRLF (c::rest) = c::breaksAsCRLF rest := by
  match rest with
  | [] => rfl
  | d::rest =>
    simp only [lengthOfLineEnding] at h h2
    simp only [breaksAsCRLF]
    split_ifs at h h2 ⊢ <;> simp_all

/-- Decoding what is encoded gives the text with its line breaks as CR LF. -/
theorem decode_encodeFrom (n : Nat) (input : List UInt8) :
    quotedPrintableDecode (encodeFrom n input) = breaksAsCRLF input := by
  fun_induction encodeFrom n input with
  | case1 => rfl
  | case2 n c rest h ih =>
    rw [decode_cons (by decide),decode_cons (by decide),ih]
    match rest with
    | [] => simp at h
    | d::rest =>
      have h := h.2
      simp only [lengthOfLineEnding] at h
      simp only [breaksAsCRLF]
      split_ifs at h ⊢ <;> simp_all
  | case3 n c h h2 => exact absurd h2 (lengthOfLineEnding_singleton c)
  | case4 n c d rest h h2 ih =>
    rw [decode_cons (by decide),decode_cons (by decide),ih]
    simp only [lengthOfLineEnding] at h2
    simp only [breaksAsCRLF]
    split_ifs at h2 ⊢ <;> simp_all
  | case5 n c rest h h2 e l hl ih =>
    rw [decode_softBreak,decode_encodedCharacter,ih,breaksAsCRLF_cons h h2]
  | case6 n c rest h h2 e l hl ih =>
    rw [decode_encodedCharacter,ih,breaksAsCRLF_cons h h2]

/-- Printable ASCII and tab. -/
def Printable (c : UInt8) : Prop := c = 0x09 ∨ 0x20 ≤ c ∧ c ≤ 0x7E

/-- What is asked of a line: its length, its characters, and that it does not end in a blank. -/
structure Acceptable (line : List UInt8) : Prop where
  length : line.length ≤ 76
  printable : ∀ c ∈ line, Printable c
  last : ∀ c ∈ line.getLast?, c ≠ 0x20 ∧ c ≠ 0x09

/-- A line so far: there is room for the mark of a soft line break, and a blank at the end is not before a line ending. -/
structure Started (line rest : List UInt8) : Prop where
  length : line.length + (if rest.isEmpty then 0 else 1) ≤ 76
  printable : ∀ c ∈ line, Printable c
  last : ∀ c ∈ line.getLast?, c = 0x20 ∨ c = 0x09 → rest ≠ [] ∧ lengthOfLineEnding rest = 0

variable {line rest : List UInt8} {c : UInt8}

theorem Started.acceptable (h : Started line rest) (he : rest = [] ∨ lengthOfLineEnding rest ≠ 0) : Acceptable line where
  length := Nat.le_of_add_right_le h.length
  printable := h.printable
  last c hc := by
    have hl := h.last c hc
    grind

theorem Started.softBreak (h : Started line (c::rest)) : Acceptable (line ++ [0x3D]) where
  length := by simpa using h.length
  printable := by
    simp only [mem_append,mem_singleton]
    rintro c (hc | rfl)
    · exact h.printable c hc
    · exact .inr (by decide)
  last := by simp

theorem encodedCharacter_printable (c : UInt8) (rest : List UInt8) : ∀ x ∈ encodedCharacter c rest, Printable x := by
  rw [encodedCharacter]
  split
  · refine forall_mem_cons.2 ⟨.inr (by decide),fun d hd => ?_⟩
    have ⟨hl,hh,_⟩ := hexDigits_bounds c d hd
    exact .inr ⟨UInt8.le_trans (by decide) hl,UInt8.le_trans hh (by decide)⟩
  next h =>
    simp only [mem_singleton]
    rintro x rfl
    simp only [requiresEncoding,Bool.or_eq_true,Bool.and_eq_true,decide_eq_true_eq] at h
    simp only [Printable,UInt8.le_iff_toNat_le,UInt8.lt_iff_toNat_lt] at h ⊢
    grind

private theorem started_append (hp : ∀ x ∈ line, Printable x)
    (hl : line.length + (encodedCharacter c rest).length + (if rest.isEmpty then 0 else 1) ≤ 76) :
    Started (line ++ encodedCharacter c rest) rest where
  length := by simpa using hl
  printable x hx := (mem_append.1 hx).elim (hp x) (encodedCharacter_printable c rest x)
  last x hx hb := by
    rw [encodedCharacter] at hx
    split at hx
    · have ⟨hl,_⟩ := hexDigits_bounds c x (by simp_all)
      rcases hb with rfl | rfl <;> simp at hl
    next hr =>
      simp at hx
      simp [requiresEncoding] at hr
      grind

private theorem linesFrom_append {a : List UInt8} (ha : ∀ x ∈ a, Printable x) (line rest : List UInt8) :
    linesFrom line (a ++ rest) = linesFrom (line ++ a) rest := by
  induction a generalizing line with
  | nil => simp
  | cons x a ih =>
    have hx : x ≠ 0x0D := fun he => by
      have := ha x mem_cons_self
      simp [Printable,he] at this
    have hs : ∀ rest, linesFrom line (x::rest) = linesFrom (line ++ [x]) rest := fun rest => by
      cases rest <;> simp [linesFrom,hx]
    rw [cons_append,hs,ih fun y hy => ha y (mem_cons_of_mem x hy),append_assoc,singleton_append]

private theorem acceptable_of_started (n : Nat) (i : List UInt8) (hn : line.length = n) (h : Started line i) :
    ∀ l ∈ linesFrom line (encodeFrom n i), Acceptable l := by
  have h0 : ∀ rest, Started [] rest := fun rest => ⟨by split <;> simp,nofun,nofun⟩
  fun_induction encodeFrom n i generalizing line with
  | case1 n => simpa [linesFrom] using h.acceptable (.inl rfl)
  | case2 n c rest hc ih =>
    rw [linesFrom,if_pos ⟨rfl,rfl⟩,forall_mem_cons]
    exact ⟨h.acceptable (.inr (by omega)),ih rfl (h0 _)⟩
  | case3 n c hc h2 => exact absurd h2 (lengthOfLineEnding_singleton c)
  | case4 n c d rest hc h2 ih =>
    rw [linesFrom,if_pos ⟨rfl,rfl⟩,forall_mem_cons]
    exact ⟨h.acceptable (.inr (by omega)),ih rfl (h0 _)⟩
  | case5 n c rest hc h2 e l hl =>
    rename_i ih
    have he : (encodedCharacter c rest).length ≤ 3 := by rw [encodedCharacter]; split <;> simp
    have hs : Started ([] ++ e) rest := started_append nofun (by simp only [length_nil]; split <;> omega)
    rw [linesFrom,if_neg (by decide),linesFrom,if_pos ⟨rfl,rfl⟩,forall_mem_cons,
      linesFrom_append (encodedCharacter_printable c rest)]
    exact ⟨h.softBreak,ih rfl hs⟩
  | case6 n c rest hc h2 e l hl =>
    rename_i ih
    rw [linesFrom_append (encodedCharacter_printable c rest)]
    refine ih (by rw [length_append,hn]) (started_append h.printable ?_)
    rw [hn,Nat.add_assoc]
    exact Nat.not_lt.1 hl

/-- The lines of an encoded text, and what decoding it gives. -/
theorem quotedPrintable_roundTrip (input : List UInt8) :
    quotedPrintableDecode (quotedPrintableEncode input) = breaksAsCRLF input ∧
      ∀ line ∈ linesFrom [] (quotedPrintableEncode input), Acceptable line :=
  ⟨decode_encodeFrom 0 input,acceptable_of_started 0 input rfl ⟨by split <;> simp,nofun,nofun⟩⟩

end WebKit.Text
