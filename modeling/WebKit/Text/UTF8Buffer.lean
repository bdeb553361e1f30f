import WebKit.Text.UTF8Scan

/-! The loop over a partial sequence. A character that does not take the whole buffer leaves the buffer as it was, so that its
first byte is read again in place of the one that was left. -/
namespace WebKit.Text
open List

/-- The items of bytes to which nothing is added: a sequence that they do not complete is malformed. -/
def closed (bytes : List UInt8) : List (Option Nat) := if (scan bytes).2 = [] then (scan bytes).1 else (scan bytes).1 ++ [none]

section Closed

variable {bytes rest : List UInt8} {item : Option Nat × Nat} {b y w : UInt8}

@[simp] theorem closed_nil : closed [] = [] := by simp [closed]

theorem closed_of_some (h : firstItem bytes = some item) : closed bytes = item.1 :: closed (bytes.drop item.2) := by
  rw [closed,closed,scan_of_some h]
  split_ifs <;> rfl

theorem closed_of_pending (h : Pending bytes) (hn : bytes ≠ []) : closed bytes = [none] := by
  rw [closed,scan_of_none h,if_neg hn]
  rfl

theorem closed_append (bytes m : List UInt8) : closed (bytes ++ m) = (scan bytes).1 ++ closed ((scan bytes).2 ++ m) := by
  rw [closed,closed,scan_append]
  split_ifs <;> simp

/-- A byte that is malformed on its own. -/
theorem closed_error (ha : ¬ isASCII b) (hv : ∀ v ∈ rest.head?, ¬ isContinuation v)
    (hl : rest = [] ∨ nonASCIISequenceLength b ≤ rest.length + 1) : closed (b::rest) = none :: closed rest := by
  by_cases hc : nonASCIISequenceLength b = 0
  · exact closed_of_some (firstItem_invalid ha hc rest)
  cases rest with
  | nil =>
    have hcs := (nonASCIISequenceLength_cases b).resolve_left hc
    rw [closed_of_pending (pending_cons (by rw [length_singleton]; omega)) (cons_ne_nil _ _),closed_nil]
  | cons v more =>
    have hle := hl.resolve_left (cons_ne_nil _ _)
    have hi : firstItem (b::v::more) = some (none, 1) := by
      rw [firstItem_sequence ha hc (by rw [length_cons]; omega)]
      exact congrArg some (decodeNonASCIISequence_error ((nonASCIISequenceLength_cases b).resolve_left hc) (hv v rfl))
    exact closed_of_some hi

/-- A first byte of two may be read in place of the byte before some others: it is that byte, or both are malformed on their
own. -/
def Replaceable (y w : UInt8) (rest : List UInt8) : Prop :=
  w = y ∨ ¬ isASCII w ∧ (∀ v ∈ rest.head?, ¬ isContinuation v) ∧ (rest = [] ∨ nonASCIISequenceLength w ≤ rest.length + 1)

private theorem closed_replace (hy : nonASCIISequenceLength y = 2) (h : Replaceable y w rest) :
    closed (w::rest) = closed (y::rest) := by
  obtain rfl | ⟨ha,hv,hl⟩ := h
  · rfl
  have ha' : ¬ isASCII y := fun h => not_ascii_of_length (by omega) (isASCII_iff.1 h)
  rw [closed_error ha hv hl,closed_error ha' hv]
  cases rest with
  | nil => exact .inl rfl
  | cons v more => exact .inr (by rw [hy,length_cons]; omega)

end Closed

/-- No byte of four before a character of two bytes and a byte that the first byte of that character may not replace. -/
def Uncut (bytes : List UInt8) : Prop := ∀ x y z w rest, x::y::z::w::rest <:+ bytes → nonASCIISequenceLength x = 4 →
  nonASCIISequenceLength y = 2 → isContinuation z → Replaceable y w rest

theorem Uncut.suffix {bytes rest : List UInt8} (h : Uncut bytes) (hs : rest <:+ bytes) : Uncut rest :=
  fun x y z w r hr => h x y z w r (hr.trans hs)

theorem uncut_of_length {bytes : List UInt8} (h : bytes.length ≤ 3) : Uncut bytes := by
  intro x y z w r hr
  have := hr.length_le
  simp only [length_cons] at this
  omega

private theorem Uncut.cons_two {y : UInt8} {rest : List UInt8} (hy : nonASCIISequenceLength y = 2) (h : Uncut rest) :
    Uncut (y::rest) := by
  intro x y' z w r hr hx
  obtain he | hr := suffix_cons_iff.1 hr
  · rw [(cons.inj he).1,hy] at hx
    omega
  · exact h x y' z w r hr hx

private theorem suffix_append_right {bytes m : List UInt8} (k : Nat) : bytes.drop k ++ m <:+ bytes ++ m :=
  ⟨bytes.take k,by rw [← append_assoc,take_append_drop]⟩

/-- A buffer with the bytes after it, in which a byte that gets lost is replaceable. -/
structure Buffer (part after : List UInt8) : Prop where
  size : part.length ≤ 3 ∨ part.length = 4 ∧ ∀ b ∈ part.head?, nonASCIISequenceLength b = 4
  kept : ∀ y z w, part = [y, z, w] → nonASCIISequenceLength y = 2 → isContinuation z → Replaceable y w after
  uncut : part ≠ [] → Uncut (part ++ after)

namespace Buffer

variable {b y : UInt8} {rest after : List UInt8}

private theorem nil (after : List UInt8) : Buffer [] after := ⟨.inl (Nat.zero_le 3),by simp,fun h => absurd rfl h⟩

theorem of_pending {part : List UInt8} (hp : Pending part) (h : part ≠ [] → Uncut (part ++ after)) : Buffer part after := by
  refine ⟨.inl hp.length_le,?_,h⟩
  rintro y z w rfl hy
  exact absurd hp.cons.2.2 (by simp [hy])

private theorem tail (h : Buffer (b::rest) after) (hb : nonASCIISequenceLength b = 0) : Buffer rest after := by
  have hl : rest.length ≤ 2 := by
    obtain hl | ⟨-,hf⟩ := h.size
    · rw [length_cons] at hl
      omega
    · rw [hf b rfl] at hb
      omega
  refine ⟨.inl (by omega),?_,fun _ => (h.uncut (cons_ne_nil _ _)).suffix (suffix_cons b _)⟩
  rintro y z w rfl
  simp at hl

private theorem single (hy : nonASCIISequenceLength y = 2) (h : Uncut after) : Buffer [y] after :=
  ⟨.inl (by simp),by simp,fun _ => h.cons_two hy⟩

/-- The bytes of a buffer that are left after a malformed piece. -/
theorem drop {part : List UInt8} {count : Nat} (hl : part.length ≤ 4)
    (hf : part.length = 4 → ∀ b ∈ part.head?, nonASCIISequenceLength b = 4) (hu : Uncut (part ++ after)) (hc : 0 < count) :
    Buffer (part.drop count) after := by
  refine ⟨.inl (by rw [length_drop]; omega),?_,fun _ => hu.suffix (suffix_append_right count)⟩
  intro y z w he hy hz
  have hlen := congrArg length he
  rw [length_drop,length_cons,length_cons,length_singleton] at hlen
  obtain rfl : count = 1 := by omega
  obtain ⟨x,more,rfl⟩ : ∃ x more, part = x::more := exists_cons_of_length_pos (by omega)
  obtain rfl : more = [y, z, w] := he
  exact hu x y z w after (suffix_refl _) (hf rfl x rfl) hy hz

end Buffer

variable {b : UInt8} {rest source : List UInt8}

private theorem length_filled (hl : ¬ nonASCIISequenceLength b > (b::rest).length + source.length) :
    nonASCIISequenceLength b ≤ (b :: rest ++ source.take (nonASCIISequenceLength b - (b::rest).length)).length := by
  rw [length_append,length_take]
  omega

theorem filled_append (source m : List UInt8) (k : Nat) :
    b :: rest ++ source.take k ++ (source.drop k ++ m) = b :: rest ++ (source ++ m) := by
  rw [append_assoc,← append_assoc (source.take k),take_append_drop]

/-- What is decoded from a filled buffer is the first item of all bytes. -/
theorem firstItem_filled (ha : ¬ isASCII b) (hc : nonASCIISequenceLength b ≠ 0)
    (hl : ¬ nonASCIISequenceLength b > (b::rest).length + source.length) {filled : List UInt8}
    (hf : filled = b :: rest ++ source.take (nonASCIISequenceLength b - (b::rest).length)) (m : List UInt8) :
    firstItem (filled ++ m) = some (decodeNonASCIISequence filled (nonASCIISequenceLength b)) := by
  refine firstItem_append ?_ m
  have hle : nonASCIISequenceLength b ≤ filled.length := hf ▸ length_filled hl
  obtain ⟨r,rfl⟩ : ∃ r, filled = b::r := ⟨_,hf⟩
  exact firstItem_sequence ha hc (by omega)

/-- The bytes that are still to be read. -/
def Progress.left (progress : Progress) : List UInt8 :=
  if progress.partialSequence = [] then progress.source else progress.partialSequence

/-- A part of a call reads some bytes, before the bytes of later calls: it has written the items up to the bytes that it
leaves. -/
structure Reads (flush : Bool) (progress : Progress) (bytes later : List UInt8) : Prop where
  pending : Pending progress.partialSequence
  flushed : flush → progress.partialSequence = []
  uncut : Uncut (bytes ++ later) → Uncut (progress.left ++ later)
  items : ∃ it, progress.out = text it ∧ progress.sawError = malformed it ∧
    closed (bytes ++ later) = it ++ closed (progress.left ++ later)

variable {flush : Bool}

private theorem Reads.after {done : Progress} {bytes bytes' later : List UInt8} (item : Option Nat)
    (h : Reads flush done bytes' later) (hi : closed (bytes ++ later) = item :: closed (bytes' ++ later))
    (hu : Uncut (bytes ++ later) → Uncut (bytes' ++ later)) :
    Reads flush (done.after (text [item]) (malformed [item])) bytes later := by
  obtain ⟨it,ho,he,hr⟩ := h.items
  refine ⟨h.pending,h.flushed,fun hb => h.uncut (hu hb),item::it,?_,?_,?_⟩
  · exact (congrArg _ ho).trans (text_append [item] it).symm
  · exact (congrArg _ he).trans (malformed_append [item] it).symm
  · rw [hi,hr]
    rfl

private theorem Uncut.of_cons (h : Uncut (b::rest)) : Uncut rest := h.suffix (suffix_cons b rest)

/-- The buffer after a character is read like the bytes that were left in it. -/
theorem Buffer.kept_of_character {later : List UInt8} {c : Nat} (h : Buffer (b::rest) (source ++ later))
    (hc : nonASCIISequenceLength b ≠ 0) (hl : ¬ nonASCIISequenceLength b > (b::rest).length + source.length) :
    let m := nonASCIISequenceLength b - (b::rest).length
    let filled := b :: rest ++ source.take m
    let kept := filled.take (filled.length-nonASCIISequenceLength b)
    (decodeNonASCIISequence filled (nonASCIISequenceLength b)).1 = some c →
    Buffer kept (source.drop m ++ later) ∧
      closed (filled.drop (nonASCIISequenceLength b) ++ (source.drop m ++ later)) = closed (kept ++ (source.drop m ++ later)) ∧
      (Uncut (filled ++ (source.drop m ++ later)) → Uncut (kept ++ (source.drop m ++ later))) := by
  intro m filled kept hs
  have hlen : filled.length = (b::rest).length + min m source.length := by rw [length_append,length_take]
  have hle : nonASCIISequenceLength b ≤ filled.length := length_filled hl
  by_cases he : filled.length = nonASCIISequenceLength b
  · have hk : kept = [] := by rw [show kept = filled.take _ from rfl,he,Nat.sub_self,take_zero]
    rw [hk,← he,drop_length]
    exact ⟨.nil _,rfl,fun hu => hu.suffix (suffix_append _ _)⟩
  · -- Only a character of two bytes leaves a byte, and its buffer was full before.
    have hm : m = nonASCIISequenceLength b - (b::rest).length := rfl
    have hcs := nonASCIISequenceLength_cases b
    have h3 : (b::rest).length = 3 ∧ nonASCIISequenceLength b = 2 := by
      obtain hsz | ⟨hsz,hf⟩ := h.size
      · omega
      · have := hf b rfl
        omega
    obtain ⟨z,w,rfl⟩ : ∃ z w, rest = [z, w] := length_eq_two.1 (by simpa using h3.1)
    have hm0 : m = 0 := by rw [hm,h3.1,h3.2]
    have hfl : filled = [b, z, w] := by rw [show filled = [b, z, w] ++ source.take m from rfl,hm0]; rfl
    have hz : isContinuation z := by
      rw [hfl,h3.2] at hs
      by_contra hz
      have hd : decodeNonASCIISequence [b, z, w] 2 = (none, 1) := decodeNonASCIISequence_error (.inl rfl) hz
      rw [hd] at hs
      cases hs
    have hk : kept = [b] := by rw [show kept = filled.take _ from rfl,hfl,h3.2]; rfl
    have hw := h.kept b z w rfl h3.2 hz
    rw [hk,hfl,hm0,h3.2,drop_zero]
    have hu : Uncut ([b, z, w] ++ (source ++ later)) → Uncut (source ++ later) := fun hu => hu.suffix (suffix_append _ _)
    exact ⟨.single h3.2 (hu (h.uncut (cons_ne_nil _ _))),closed_replace h3.2 hw,fun hb => (hu hb).cons_two h3.2⟩

/-- The loop over a partial sequence writes the items of the bytes, whatever the chunks to come. -/
theorem handlePartialSequence16_reads (flush : Bool) (part source later : List UInt8) (h : Buffer part (source ++ later))
    (hlater : flush → later = []) :
    Reads flush (handlePartialSequence16 flush false part source) (part ++ source) later := by
  fun_induction handlePartialSequence16 flush false part source with
  | case1 source => exact ⟨rfl,fun _ => rfl,id,[],rfl,rfl,rfl⟩
  | case2 source b rest ha ih =>
    have hz : nonASCIISequenceLength b = 0 := by
      by_contra hc
      exact not_ascii_of_length hc (isASCII_iff.1 ha)
    have hr : Reads flush _ (b :: rest ++ source) later :=
      (ih (h.tail hz)).after (some b.toNat) (closed_of_some (firstItem_ascii ha (rest ++ source ++ later))) Uncut.of_cons
    rwa [text_some,appendCharacter_byte] at hr
  | case3 source b rest ha hcn hs => cases hs
  | case4 source b rest ha hcn hs ih =>
    exact Reads.after none (ih (h.tail hcn)) (closed_of_some (firstItem_invalid ha hcn _)) Uncut.of_cons
  | case5 source b rest ha hcn hl hf =>
    rw [Bool.not_eq_true'] at hf
    subst hf
    exact ⟨pending_append hl,fun h => absurd h Bool.false_ne_true,id,[],rfl,rfl,rfl⟩
  | case6 source b rest ha hcn hl hf hs => cases hs
  | case7 source b rest ha hcn hl hf hs =>
    rw [Bool.not_eq_true,Bool.not_eq_false'] at hf
    obtain rfl := hlater hf
    refine ⟨rfl,fun _ => rfl,fun _ => uncut_of_length (Nat.zero_le 3),[none],rfl,rfl,?_⟩
    rw [append_nil,closed_of_pending (pending_append hl) (cons_ne_nil _ _)]
    exact (congrArg _ closed_nil).symm
  | case8 source b rest ha hcn hl m filled d hn hs => cases hs
  | case9 source b rest ha hcn hl m filled d hn hs ih =>
    have hall : filled ++ (source.drop m ++ later) = b :: rest ++ source ++ later := by
      rw [filled_append,append_assoc]
    have hle : d.2 ≤ filled.length := Nat.le_trans (decodeNonASCIISequence_pos filled hcn).2 (length_filled hl)
    have hu : Uncut (filled ++ (source.drop m ++ later)) := by
      rw [filled_append]
      exact h.uncut (cons_ne_nil _ _)
    have hi := closed_of_some (firstItem_filled ha hcn hl rfl (source.drop m ++ later))
    rw [drop_append_of_le_length hle,hn] at hi
    have hb : Buffer (filled.drop d.2) (source.drop m ++ later) := by
      have hlen : filled.length = (b::rest).length + min m source.length := by rw [length_append,length_take]
      have hcs := nonASCIISequenceLength_cases b
      have hsz := h.size
      refine .drop (by omega) (fun h4 c hc => ?_) hu (decodeNonASCIISequence_pos filled hcn).1
      obtain rfl : b = c := Option.some.inj hc
      obtain hsz | ⟨-,hsz⟩ := hsz
      · omega
      · exact hsz b rfl
    refine Reads.after none (ih hb) ?_ fun _ => ?_
    · rw [← hall,hi,append_assoc]
    · rw [append_assoc]
      exact hu.suffix (suffix_append_right d.2)
  | case10 source b rest ha hcn hl m filled d c hsm ih =>
    have hcn' : d.2 = nonASCIISequenceLength b := count_of_character hcn hsm
    have hle := length_filled hl
    have hi := closed_of_some (firstItem_filled ha hcn hl rfl (source.drop m ++ later))
    rw [hcn',drop_append_of_le_length hle,hsm] at hi
    have hall : filled ++ (source.drop m ++ later) = b :: rest ++ source ++ later := by
      rw [filled_append,append_assoc]
    have hk := h.kept_of_character hcn hl hsm
    have hr : Reads flush _ (b :: rest ++ source) later := (ih hk.1).after (some c)
      (by rw [← hall,hi,hk.2.1,append_assoc]) fun hu => by rw [append_assoc]; exact hk.2.2 (hall ▸ hu)
    rwa [text_some,text_nil,append_nil] at hr

end WebKit.Text
