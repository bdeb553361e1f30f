import WebKit.Text.UTF8Calls

/-! Bytes that arrive in chunks. The last byte of a full buffer is lost when a character of two bytes is decoded before it, and
the first byte of that character takes its place. -/
namespace WebKit.Text
open List

/-- Some bytes with the address of their end. -/
structure Chunk where
  endAddress : Nat
  bytes : List UInt8
  deriving DecidableEq

/-- The text and the error flag of a call that flushes, without earlier bytes. -/
def decodeWhole (chunk : Chunk) : List UInt16 × Bool :=
  let (text, _, sawError) := decode true false chunk.endAddress [] chunk.bytes
  (text, sawError)

/-- The texts of the calls for some chunks and a last one that flushes, and their error flag. -/
def decodeChunks (partialSequence : List UInt8) : List Chunk → Chunk → List UInt16 × Bool
  | [], last =>
    let (text, _, sawError) := decode true false last.endAddress partialSequence last.bytes
    (text, sawError)
  | chunk::chunks, last =>
    let (text, partialSequence, sawError) := decode false false chunk.endAddress partialSequence chunk.bytes
    let rest := decodeChunks partialSequence chunks last
    (text ++ rest.1, sawError || rest.2)

theorem decodeWhole_eq (c : Chunk) : decodeWhole c = (text (closed c.bytes), malformed (closed c.bytes)) := by
  rw [decodeWhole,decode_nil]
  rfl

/-- Chunks are decoded like their bytes at once when no byte matters that gets lost. -/
theorem decodeChunks_eq {part : List UInt8} (h : Pending part) (cs : List Chunk) (l : Chunk)
    (hu : Uncut (part ++ ((cs.map Chunk.bytes).flatten ++ l.bytes))) : decodeChunks part cs l =
      let items := closed (part ++ ((cs.map Chunk.bytes).flatten ++ l.bytes))
      (text items, malformed items) := by
  induction cs generalizing part with
  | nil =>
    have hu : Uncut (part ++ l.bytes ++ []) := by simpa using hu
    obtain ⟨-,hf,-,it,ho,he,hi⟩ := decode_decodes true l.endAddress h hu fun _ => rfl
    rw [hf rfl,append_nil,append_nil,closed_nil,append_nil] at hi
    rw [decodeChunks,map_nil,flatten_nil,nil_append,hi]
    exact Prod.ext ho he
  | cons c cs ih =>
    rw [map_cons,flatten_cons,append_assoc,← append_assoc] at hu ⊢
    obtain ⟨hp,-,hu',it,ho,he,hi⟩ := decode_decodes false c.endAddress h hu nofun
    rw [decodeChunks]
    dsimp only
    rw [ih hp (hu' hu),ho,he,hi,text_append,malformed_append]

/-- A first byte of four before a character of two bytes. -/
def FourTwo (bytes : List UInt8) : Prop := ∃ x y z, nonASCIISequenceLength x = 4 ∧ nonASCIISequenceLength y = 2 ∧
  isContinuation z = true ∧ [x, y, z] <:+: bytes

/-- No cut matters to the text of bytes without one. -/
theorem decodeChunks_eq_decodeWhole (chunks : List Chunk) (last : Chunk)
    (h : ¬ FourTwo ((chunks.map Chunk.bytes).flatten ++ last.bytes)) (endAddress : Nat) :
    decodeChunks [] chunks last = decodeWhole ⟨endAddress,(chunks.map Chunk.bytes).flatten ++ last.bytes⟩ := by
  have hu : Uncut ((chunks.map Chunk.bytes).flatten ++ last.bytes) := fun x y z w r hr hx hy hz =>
    absurd ⟨x,y,z,hx,hy,hz,(prefix_append [x, y, z] (w::r)).isInfix.trans hr.isInfix⟩ h
  rw [decodeChunks_eq pending_nil chunks last hu,decodeWhole_eq]
  rfl

theorem decodeChunks_eq_decodeWhole_accent :
    decodeChunks [] [⟨0,[0xC3]⟩] ⟨0,[0xA9]⟩ = decodeWhole ⟨0,[0xC3, 0xA9]⟩ := by
  apply decodeChunks_eq_decodeWhole
  rintro ⟨x,y,z,-,-,-,h⟩
  exact absurd h.length_le (by simp)

end WebKit.Text
