import WebKit.WTF.URLParser.Characters
import WebKit.WTF.UTF8Text

/-! Form data in a URL: `URLParser::serialize` and `URLParser::parseURLEncodedForm`. -/
namespace WebKit.WTF.URLParser
open List Base

abbrev URLEncodedForm := List (List UInt16 × List UInt16)

/-- Strict conversions in which a string without unpaired surrogates survives. -/
structure UTF8Conversion where
  utf8 : List UInt16 → Option (List UInt8)
  fromUTF8 : List UInt8 → List UInt16
  utf8_ascii (s : List UInt8) : (∀ b ∈ s, b < 0x80) → utf8 (s.map UInt8.toUInt16) = some s
  roundTrip (text : List Char) : ∃ bytes, utf8 (utf16 text) = some bytes ∧ fromUTF8 bytes = utf16 text

/-- The conversions of strings that are not too long. The null string for bytes that are not UTF-8 counts as empty. -/
def strictConversion : UTF8Conversion where
  utf8 s := match convertUTF16ToUTF8 true s (3*s.length) with
    | (.conversionOK, _, target) => some target
    | _ => none
  fromUTF8 bytes := match convertUTF8ToUTF16 true bytes.length bytes bytes.length with
    | (.conversionOK, _, target) => target
    | _ => []
  utf8_ascii s hs := by
    obtain ⟨text,ht,hu⟩ := sequence_ascii (all_eq_true.2 fun b hb => decide_eq_true (hs b hb))
    rw [← hu,convertUTF16ToUTF8_utf16 true text (Nat.le_refl _),sequence_strict_iff.1 ht]
  roundTrip text := by
    have ht : Sequence Accepted text (Base.utf8 text) := (sequence_strict_iff.2 rfl).imp_of_mem fun _ _ _ => .inl
    rw [convertUTF16ToUTF8_utf16 true text (Nat.le_refl _)]
    exact ⟨_,rfl,by rw [convertUTF8ToUTF16_of_sequence ht (Nat.le_refl _) (Nat.le_refl _)]⟩

def percentEncodeByte (byte : UInt8) : List UInt8 :=
  [0x25, upperNibbleToASCIIHexDigit byte, lowerNibbleToASCIIHexDigit byte]

def percentDecode : List UInt8 → List UInt8
  | byte::a::b::rest =>
    if byte ≠ 0x25 then byte::percentDecode (a::b::rest)
    else if isASCIIHexDigit a.toNat && isASCIIHexDigit b.toNat then toASCIIHexByte a b::percentDecode rest
    else byte::percentDecode (a::b::rest)
  | rest => rest

/-- `StringView::split`, which skips empty entries. -/
def splitFrom (separator : UInt16) (entry : List UInt16) : List UInt16 → List (List UInt16)
  | [] => if entry = [] then [] else [entry]
  | c::rest =>
    if c ≠ separator then splitFrom separator (entry ++ [c]) rest
    else if entry = [] then splitFrom separator [] rest
    else entry::splitFrom separator [] rest

def replacePlus (s : List UInt16) : List UInt16 := s.map fun c => if c = 0x2B then 0x20 else c

section
variable (conv : UTF8Conversion)

def formURLDecode (input : List UInt16) : Option (List UInt16) :=
  (conv.utf8 input).map fun utf8 => conv.fromUTF8 (percentDecode utf8)

def parseURLEncodedForm (input : List UInt16) : URLEncodedForm :=
  (splitFrom 0x26 [] input).filterMap fun bytes =>
    let equalIndex := bytes.idxOf 0x3D
    if equalIndex = bytes.length then do
      let name ← formURLDecode conv (replacePlus bytes)
      return (name, [])
    else do
      let name ← formURLDecode conv (replacePlus (bytes.take equalIndex))
      let value ← formURLDecode conv (replacePlus (bytes.drop (equalIndex+1)))
      return (name, value)

def serializeByte (byte : UInt8) : List UInt8 :=
  if byte = 0x20 then [0x2B]
  else if byte = 0x2A || byte = 0x2D || byte = 0x2E || (byte ≥ 0x30 && byte ≤ 0x39) || (byte ≥ 0x41 && byte ≤ 0x5A)
      || byte = 0x5F || (byte ≥ 0x61 && byte ≤ 0x7A) then [byte]
  else percentEncodeByte byte

/-- Nothing if the string cannot be converted. -/
def serializeURLEncodedForm (input : List UInt16) : List UInt8 := ((conv.utf8 input).getD []).flatMap serializeByte

def serializeTuple (tuple : List UInt16 × List UInt16) : List UInt8 :=
  serializeURLEncodedForm conv tuple.1 ++ 0x3D::serializeURLEncodedForm conv tuple.2

def serialize (tuples : URLEncodedForm) : List UInt16 :=
  (tuples.foldl (fun output tuple =>
    (if output.isEmpty then output else output ++ [0x26]) ++ serializeTuple conv tuple) []).map UInt8.toUInt16

end

private theorem percentDecode_cons {b : UInt8} (h : b ≠ 0x25) (rest : List UInt8) :
    percentDecode (b::rest) = b::percentDecode rest := by
  match rest with
  | [] => rfl
  | [_] => rfl
  | x::y::rest => rw [percentDecode,if_pos h]

private theorem percentDecode_percentEncodeByte (b : UInt8) (rest : List UInt8) :
    percentDecode (percentEncodeByte b ++ rest) = b::percentDecode rest := by
  have ⟨hu,hl,he⟩ := toASCIIHexByte_digits b
  simp [percentEncodeByte,percentDecode,hu,hl,he]

/-- No byte written separates, and none but a sign for a space is a plus. -/
theorem serializeByte_safe (b : UInt8) :
    ∀ x ∈ serializeByte b, x < 0x80 ∧ x ≠ 0x26 ∧ x ≠ 0x3D ∧ (x = 0x2B → b = 0x20) := by
  rw [serializeByte]
  split_ifs with hs hu
  · simp [hs]
  · simp only [mem_singleton,forall_eq]
    grind
  · rw [percentEncodeByte,forall_mem_cons]
    refine ⟨by simp,fun d hd => ?_⟩
    have := hexDigits_bounds b d hd
    grind

def plusToSpace (b : UInt8) : UInt8 := if b = 0x2B then 0x20 else b

private theorem percentDecode_serializeByte (b : UInt8) (rest : List UInt8) :
    percentDecode ((serializeByte b).map plusToSpace ++ rest) = b::percentDecode rest := by
  have hs := serializeByte_safe b
  by_cases h : b = 0x20
  · subst h
    exact percentDecode_cons (by decide) rest
  · have hm : (serializeByte b).map plusToSpace = serializeByte b :=
      (map_congr_left fun x hx => if_neg fun he => h ((hs x hx).2.2.2 he)).trans (map_id _)
    rw [hm]
    rw [serializeByte,if_neg h]
    split
    next hu => exact percentDecode_cons (fun he => by simp [he] at hu) rest
    · exact percentDecode_percentEncodeByte b rest

private theorem percentDecode_flatMap (bytes : List UInt8) :
    percentDecode ((bytes.flatMap serializeByte).map plusToSpace) = bytes := by
  induction bytes with
  | nil => rfl
  | cons b bytes ih => rw [flatMap_cons,map_append,percentDecode_serializeByte,ih]

variable {conv : UTF8Conversion} {s : List UInt16}

theorem serialize_safe {x : UInt8} (hx : x ∈ serializeURLEncodedForm conv s) : x < 0x80 ∧ x ≠ 0x26 ∧ x ≠ 0x3D := by
  obtain ⟨b,-,hb⟩ := mem_flatMap.1 hx
  have ⟨h,ha,he,_⟩ := serializeByte_safe b x hb
  exact ⟨h,ha,he⟩

private theorem formURLDecode_serialize (conv : UTF8Conversion) (text : List Char) :
    formURLDecode conv (replacePlus ((serializeURLEncodedForm conv (utf16 text)).map UInt8.toUInt16)) = utf16 text := by
  obtain ⟨bs,hb,hf⟩ := conv.roundTrip text
  have hp : ∀ b : UInt8, (if b.toUInt16 = 0x2B then 0x20 else b.toUInt16) = (plusToSpace b).toUInt16 :=
    forall_utf8Byte (by decide +kernel)
  have hm : ∀ l : List UInt8, replacePlus (l.map UInt8.toUInt16) = (l.map plusToSpace).map UInt8.toUInt16 := fun l => by
    simp [replacePlus,hp]
  have ha : ∀ b ∈ (serializeURLEncodedForm conv (utf16 text)).map plusToSpace, b < 0x80 := by
    intro b hb
    obtain ⟨x,hx,rfl⟩ := mem_map.1 hb
    rw [plusToSpace]
    split
    · decide
    · exact (serialize_safe hx).1
  rw [formURLDecode,hm,conv.utf8_ascii _ ha,serializeURLEncodedForm,hb,Option.getD_some,Option.map_some,
    percentDecode_flatMap,hf]

theorem splitFrom_append {a : List UInt16} (ha : 0x26 ∉ a) (e rest : List UInt16) :
    splitFrom 0x26 e (a ++ rest) = splitFrom 0x26 (e ++ a) rest := by
  induction a generalizing e with
  | nil => simp
  | cons c a ih =>
    rw [cons_append,splitFrom,if_pos fun hc => ha (by simp [hc]),ih fun hc => ha (mem_cons_of_mem c hc),
      append_assoc,singleton_append]

variable {α : Type}

private theorem splitFrom_entries {f : α → List UInt16} {as : List α} (ha : ∀ a ∈ as, f a ≠ [] ∧ 0x26 ∉ f a) {e : List UInt16}
    (he : e ≠ []) : splitFrom 0x26 e (as.flatMap fun a => 0x26::f a) = e::as.map f := by
  induction as generalizing e with
  | nil => simp [splitFrom,he]
  | cons a as ih =>
    have ⟨hn,hs⟩ := ha a mem_cons_self
    rw [flatMap_cons,cons_append,splitFrom,if_neg (not_not.2 rfl),if_neg he,splitFrom_append hs,nil_append,
      ih (fun b hb => ha b (mem_cons_of_mem a hb)) hn,map_cons]

private theorem foldl_serialize {ts : URLEncodedForm} {o : List UInt8} (h : o ≠ []) :
    ts.foldl (fun o tuple => (if o.isEmpty then o else o ++ [0x26]) ++ serializeTuple conv tuple)
      o = o ++ ts.flatMap fun tuple => 0x26::serializeTuple conv tuple := by
  induction ts generalizing o with
  | nil => simp
  | cons t ts ih =>
    rw [foldl_cons,ih (by simp [serializeTuple]),if_neg (by simpa using h)]
    simp

private theorem splitFrom_serialize (f : URLEncodedForm) : splitFrom 0x26 [] (serialize conv f) =
    f.map fun tp => (serializeTuple conv tp).map UInt8.toUInt16 := by
  have hs : ∀ t, (serializeTuple conv t).map UInt8.toUInt16 ≠ [] ∧
      0x26 ∉ (serializeTuple conv t).map UInt8.toUInt16 := fun t => by
    refine ⟨by simp [serializeTuple],fun hm => ?_⟩
    obtain ⟨b,hb,he⟩ := mem_map.1 hm
    obtain rfl : b = 0x26 := UInt8.toUInt16_inj.1 he
    rcases mem_append.1 hb with hb | hb
    · exact (serialize_safe hb).2.1 rfl
    · exact (serialize_safe ((mem_cons.1 hb).resolve_left (by decide))).2.1 rfl
  cases f with
  | nil => rfl
  | cons t ts =>
    rw [serialize,foldl_cons,foldl_serialize (by simp [serializeTuple])]
    simp only [isEmpty_nil,if_true,nil_append,map_append,map_flatMap,map_cons]
    rw [splitFrom_append (hs t).2,nil_append]
    exact splitFrom_entries (fun a _ => hs a) (hs t).1

/-- A form whose names and values are texts survives, and its text is written again. -/
theorem parseURLEncodedForm_serialize (conv : UTF8Conversion) (texts : List (List Char × List Char)) :
    let form := texts.map fun text => (utf16 text.1, utf16 text.2)
    parseURLEncodedForm conv (serialize conv form) = form ∧
      serialize conv (parseURLEncodedForm conv (serialize conv form)) = serialize conv form := by
  intro form
  have hp : parseURLEncodedForm conv (serialize conv form) = form := by
    rw [parseURLEncodedForm,splitFrom_serialize,filterMap_map,filterMap_map]
    refine (filterMap_congr fun t _ => ?_).trans (congrFun filterMap_eq_map texts)
    have he : (0x3D : UInt16) ∉ (serializeURLEncodedForm conv (utf16 t.1)).map UInt8.toUInt16 := fun hm => by
      obtain ⟨b,hb,he⟩ := mem_map.1 hm
      exact (serialize_safe hb).2.2 (UInt8.toUInt16_inj.1 he)
    have hn := formURLDecode_serialize conv t.1
    have hv := formURLDecode_serialize conv t.2
    simp_all [serializeTuple,idxOf_append_of_notMem,drop_append,drop_eq_nil_of_le]
  exact ⟨hp,by rw [hp]⟩

end WebKit.WTF.URLParser
