import WebKit.Text.UTF8Buffer

/-! A call writes the text of the bytes that it reads, whether it writes 8-bit or 16-bit characters. -/
namespace WebKit.Text
open List

variable {flush : Bool} {addr : Nat} {seq source later : List UInt8}

/-- What a call makes of some bytes when nothing was waiting before them, and what is waiting after it. -/
def close (flush : Bool) (bytes : List UInt8) : List (Option Nat) × List UInt8 := if flush then (closed bytes, []) else scan bytes

private theorem close_of_scan {it : List (Option Nat)} {bytes rest : List UInt8}
    (h : scan bytes = (it ++ (scan rest).1, (scan rest).2)) :
    close flush bytes = (it ++ (close flush rest).1, (close flush rest).2) := by
  cases flush with
  | false => exact h
  | true =>
    rw [close,close,if_pos rfl,if_pos rfl,closed,closed,h]
    split_ifs <;> simp

private theorem close_of_done {bytes : List UInt8} (h : ¬ (flush ∧ (scan bytes).2 ≠ [])) : close flush bytes = scan bytes := by
  cases flush with
  | false => rfl
  | true =>
    rw [close,if_pos rfl,closed,if_pos (by simpa using h)]
    exact Prod.ext rfl (by simpa using Eq.symm (by simpa using h))

private theorem close_of_waiting {bytes : List UInt8} (h : (scan bytes).2 ≠ []) :
    close true bytes = ((scan bytes).1 ++ [none], []) := by
  rw [close,if_pos rfl,closed,if_neg h]

private theorem malformed_close {bytes : List UInt8} (h : malformed (scan bytes).1) : malformed (close flush bytes).1 := by
  by_cases hd : flush ∧ (scan bytes).2 ≠ []
  · rw [hd.1,close_of_waiting hd.2,malformed_append,h]
    rfl
  · rwa [close_of_done hd]

theorem decode16_waiting (addr : Nat) (h : Pending seq) (hn : seq ≠ []) :
    decode16 true false addr seq [] = ⟨[replacementCharacter],[],[],true,false⟩ := by
  obtain ⟨b,r,rfl⟩ := exists_cons_of_ne_nil hn
  obtain ⟨ha,hc,hl⟩ := h.cons
  have hh : handlePartialSequence16 true false (b::r) [] = ⟨[replacementCharacter],[],[],true,false⟩ := by
    rw [handlePartialSequence16,if_neg ha,dif_neg hc,if_pos (by simpa using hl)]
    rfl
  rw [decode16,hh,sourceLoop16]
  rfl

/-- A call for 16-bit characters goes on with the source when it has handled the partial sequence. -/
theorem decode16_eq (flush : Bool) (addr : Nat) (seq source : List UInt8) :
    let done := handlePartialSequence16 flush false seq source
    decode16 flush false addr seq source =
      if done.partialSequence ≠ [] then done
      else ⟨done.out ++ text (close flush done.source).1,[],(close flush done.source).2,
        done.sawError || malformed (close flush done.source).1,false⟩ := by
  rw [decode16]
  generalize handlePartialSequence16 flush false seq source = done
  dsimp only
  split_ifs with hp hd
  · rfl
  · rw [sourceLoop16_eq] at hd ⊢
    obtain ⟨rfl,hn⟩ : flush ∧ (scan done.source).2 ≠ [] := hd
    rw [close_of_waiting hn,text_append,malformed_append,← append_assoc,← Bool.or_assoc]
    exact congrArg _ (decode16_waiting addr (pending_scan _) hn)
  · rw [sourceLoop16_eq] at hd ⊢
    rw [close_of_done hd]
    rfl

/-- The loop over a source that writes 8-bit characters. -/
theorem sourceLoop8_spec (addr : Nat) (source : List UInt8) :
    let done := sourceLoop8 false addr source
    ∃ it, done.out = text it ∧ malformed it = false ∧
      scan source = (it ++ (scan (done.partialSequence ++ done.source)).1,
        (scan (done.partialSequence ++ done.source)).2) ∧
      if done.upConvertTo16Bit then done.partialSequence = [] ∧
        (done.sawError → malformed (scan done.source).1)
      else Pending done.partialSequence ∧ done.source = [] ∧ done.sawError = false := by
  fun_induction sourceLoop8 false addr source with
  | case1 => exact ⟨[],rfl,rfl,by simp,rfl,rfl,rfl⟩
  | case2 b r ha cn ih =>
    obtain ⟨it,ho,hw,hsc,hr⟩ := ih
    have hs := scan_ascii (all_asciiCount addr r ha) ((b::r).drop cn)
    rw [take_append_drop,hsc,← append_assoc] at hs
    refine ⟨_,?_,?_,hs,hr⟩
    · rw [text_append,text_ascii,← ho]
      rfl
    · rw [malformed_append,malformed_ascii,hw]
      rfl
  | case3 b r ha hc =>
    refine ⟨[],rfl,rfl,rfl,rfl,fun _ => ?_⟩
    rw [scan_of_some (firstItem_invalid ha hc r)]
    rfl
  | case4 b r ha hc hln => exact ⟨[],rfl,rfl,by simp,pending_cons hln,rfl,rfl⟩
  | case5 b r ha hc hln hn =>
    refine ⟨[],rfl,rfl,rfl,rfl,fun _ => ?_⟩
    rw [scan_of_some (firstItem_sequence ha hc hln),hn]
    rfl
  | case6 b r ha hc hln c hso hl => exact ⟨[],rfl,rfl,rfl,rfl,by simp⟩
  | case7 b r ha hc hln c hso hsm ih =>
    obtain ⟨it,ho,hw,hsc,hr⟩ := ih
    have hc' : (decodeNonASCIISequence (b::r) (nonASCIISequenceLength b)).2 = nonASCIISequenceLength b :=
      count_of_character hc hso
    refine ⟨some c :: it,?_,hw,?_,hr⟩
    · rw [text_some,← ho,appendCharacter,if_pos (by omega)]
      rfl
    · rw [scan_of_some (firstItem_sequence ha hc hln),hso,hc',hsc]
      rfl

private theorem decode8_waiting (addr : Nat) (h : Pending seq) (hn : seq ≠ []) :
    decode8 true false addr seq [] = ⟨[],[],seq,false,true⟩ := by
  obtain ⟨b,r,rfl⟩ := exists_cons_of_ne_nil hn
  obtain ⟨ha,hc,hl⟩ := h.cons
  have hh : handlePartialSequence8 true (b::r) [] = ⟨[],[],b::r,false,true⟩ := by
    rw [handlePartialSequence8,if_neg ha,dif_neg hc,if_pos (by simpa using hl)]
    rfl
  rw [decode8,hh]
  rfl

/-- The part for 8-bit characters has written some well-formed ones after others. The part for 16-bit characters goes on with a
source or with the bytes that wait for more at the end, or everything is done. -/
inductive Narrow (flush : Bool) (before : List UInt16) (source : List UInt8) : Progress → Prop where
  | wide {items : List (Option Nat)} {rest : List UInt8} {error : Bool} (hitems : malformed items = false)
    (hscan : scan source = (items ++ (scan rest).1, (scan rest).2)) (herror : error → malformed (scan rest).1) :
    Narrow flush before source ⟨before ++ text items,rest,[],error,true⟩
  | waiting {items : List (Option Nat)} {left : List UInt8} (hitems : malformed items = false) (hflush : flush)
    (hscan : scan source = (items, left)) (hleft : left ≠ []) :
    Narrow flush before source ⟨before ++ text items,[],left,false,true⟩
  | done {items : List (Option Nat)} {left : List UInt8} (hitems : malformed items = false)
    (hclose : close flush source = (items, left)) : Narrow flush before source ⟨before ++ text items,[],left,false,false⟩

section Handled

variable {done : Progress} (hh : handlePartialSequence8 flush seq source = done) (hu : done.upConvertTo16Bit = false)
  (hp : done.partialSequence = [])
include hh hu hp

private theorem decode8_narrow (addr : Nat) : Narrow flush done.out done.source (decode8 flush false addr seq source) := by
  have hd : decode8 flush false addr seq source =
      let l := (sourceLoop8 false addr done.source).after done.out false
      if l.upConvertTo16Bit then l
      else if flush ∧ l.partialSequence ≠ [] then
        (decode8 flush false addr l.partialSequence l.source).after l.out l.sawError
      else l := by
    rw [decode8,hh]
    simp [hu,hp]
  rw [hd]
  obtain ⟨it,ho,hw,hs,hr⟩ := sourceLoop8_spec addr done.source
  generalize sourceLoop8 false addr done.source = l at *
  obtain ⟨out,src,left,error,up⟩ := l
  obtain rfl : out = text it := ho
  dsimp only [Progress.after] at *
  cases up with
  | true =>
    obtain ⟨rfl,he⟩ := hr
    exact .wide hw hs he
  | false =>
    obtain ⟨hl,rfl,rfl⟩ := hr
    rw [append_nil,scan_of_none hl,append_nil] at hs
    rw [if_neg Bool.false_ne_true]
    split_ifs with hf
    · obtain ⟨rfl,hn⟩ := hf
      rw [decode8_waiting addr hl hn,append_nil]
      exact .waiting hw rfl hs hn
    · exact .done hw (by rw [close_of_done (by rwa [hs]),hs])

/-- A call that has handled the partial sequence with 8-bit characters writes the items of the source. -/
theorem decode_handled (addr : Nat) : decode flush false addr seq source =
    (done.out ++ text (close flush done.source).1, (close flush done.source).2, malformed (close flush done.source).1) := by
  have hn := decode8_narrow hh hu hp addr
  rw [decode]
  generalize decode8 flush false addr seq source = n at *
  cases hn with
  | @wide it rest error hw hs he =>
    have hd := decode16_eq flush addr [] rest
    rw [handlePartialSequence16] at hd
    dsimp only [Progress.after]
    rw [hd,close_of_scan hs,text_append,malformed_append,hw,← append_assoc]
    refine Prod.ext rfl (Prod.ext rfl ?_)
    cases error with
    | false => rfl
    | true => exact (malformed_close (he rfl)).symm
  | waiting hw hf hs hn =>
    subst hf
    have hl := pending_scan done.source
    rw [hs] at hl
    dsimp only [Progress.after]
    rw [decode16_waiting addr hl hn,close_of_waiting (by rwa [hs]),hs,text_append,malformed_append,hw,append_assoc]
    rfl
  | done hw hc =>
    rw [hc,hw]
    rfl

end Handled

/-- Nothing is waiting before some bytes. -/
theorem decode_nil (flush : Bool) (addr : Nat) (bytes : List UInt8) : decode flush false addr [] bytes =
    (text (close flush bytes).1, (close flush bytes).2, malformed (close flush bytes).1) := by
  have hh : handlePartialSequence8 flush [] bytes = ⟨[],bytes,[],false,false⟩ := by rw [handlePartialSequence8]
  exact decode_handled hh rfl rfl addr

/-- What a call returns for some bytes, before the bytes of later calls. -/
structure Decodes (flush : Bool) (result : List UInt16 × List UInt8 × Bool) (bytes later : List UInt8) : Prop where
  pending : Pending result.2.1
  flushed : flush → result.2.1 = []
  uncut : Uncut (bytes ++ later) → Uncut (result.2.1 ++ later)
  items : ∃ it, result.1 = text it ∧ result.2.2 = malformed it ∧ closed (bytes ++ later) = it ++ closed (result.2.1 ++ later)

variable {done : Progress} {bytes : List UInt8}

private theorem Reads.decodes (h : Reads flush done bytes later) (hn : done.partialSequence ≠ []) :
    Decodes flush (done.out, done.partialSequence, done.sawError) bytes later := by
  obtain ⟨hp,hf,hu,hi⟩ := h
  rw [Progress.left,if_neg hn] at hu hi
  exact ⟨hp,hf,hu,hi⟩

private theorem Reads.decodes_close (h : Reads flush done bytes later) (hn : done.partialSequence = [])
    (hl : flush → later = []) :
    Decodes flush (done.out ++ text (close flush done.source).1, (close flush done.source).2,
      done.sawError || malformed (close flush done.source).1) bytes later := by
  obtain ⟨-,-,hu,it,ho,he,hi⟩ := h
  rw [Progress.left,if_pos hn] at hu hi
  rw [ho,he,← text_append,← malformed_append]
  cases flush with
  | true =>
    obtain rfl := hl rfl
    refine ⟨rfl,fun _ => rfl,fun _ => uncut_of_length (Nat.zero_le 3),_,rfl,rfl,?_⟩
    simpa [close] using hi
  | false =>
    obtain ⟨bf,hb⟩ := exists_eq_append_scan done.source
    refine ⟨pending_scan _,nofun,fun h => (hu h).suffix ⟨bf,?_⟩,_,rfl,rfl,?_⟩
    · rw [← append_assoc]
      exact congrArg (· ++ later) hb.symm
    · rw [hi,closed_append,append_assoc]
      rfl

/-- It leaves everything to the part for 16-bit characters, or has handled or kept what was waiting. -/
theorem handlePartialSequence8_reads (flush : Bool) (h : Pending seq) (source : List UInt8)
    (hu : Uncut (seq ++ source ++ later)) :
    let done := handlePartialSequence8 flush seq source
    done.sawError = false ∧
      (done.upConvertTo16Bit ∧ done.partialSequence ++ done.source = seq ++ source ∧
          Buffer done.partialSequence (done.source ++ later) ∨
        done.upConvertTo16Bit = false ∧ Reads flush done (seq ++ source) later) := by
  cases seq with
  | nil =>
    rw [handlePartialSequence8]
    exact ⟨rfl,.inr ⟨rfl,rfl,fun _ => rfl,id,[],rfl,rfl,rfl⟩⟩
  | cons b r =>
    obtain ⟨ha,hc,hsz⟩ := h.cons
    rw [append_assoc] at hu
    rw [handlePartialSequence8,if_neg ha,dif_neg hc]
    by_cases hln : nonASCIISequenceLength b > (b::r).length + source.length
    · rw [if_pos hln]
      cases flush with
      | false =>
        exact ⟨rfl,.inr ⟨rfl,pending_append hln,fun h => absurd h Bool.false_ne_true,id,[],rfl,rfl,rfl⟩⟩
      | true => exact ⟨rfl,.inl ⟨rfl,rfl,.of_pending h fun _ => hu⟩⟩
    · rw [if_neg hln]
      generalize hm : nonASCIISequenceLength b - (b::r).length = m
      have hlen : (b :: r ++ source.take m).length = nonASCIISequenceLength b := by
        rw [length_append,length_take]
        omega
      have hwide : b :: r ++ source.take m ++ source.drop m = b :: r ++ source ∧
          Buffer (b :: r ++ source.take m) (source.drop m ++ later) := by
        refine ⟨by rw [append_assoc,take_append_drop],?_,?_,fun _ => by rwa [filled_append]⟩
        · have hcs := nonASCIISequenceLength_cases b
          rw [hlen]
          by_cases h4 : nonASCIISequenceLength b = 4
          · exact .inr ⟨h4,fun c hb => Option.some.inj hb ▸ h4⟩
          · exact .inl (by omega)
        · intro y z w he hy
          rw [he] at hlen
          rw [show b = y from (cons.inj he).1] at hlen
          exact absurd hlen (by simp [hy])
      dsimp only
      split
      · exact ⟨rfl,.inl ⟨rfl,hwide⟩⟩
      · rename_i character hs
        split_ifs with hl
        · exact ⟨rfl,.inl ⟨rfl,hwide⟩⟩
        · have hi := closed_of_some (firstItem_filled ha hc hln rfl (source.drop m ++ later))
          rw [hm,hs,count_of_character hc hs,← hlen,drop_left,filled_append] at hi
          rw [hlen,Nat.sub_self,take_zero,handlePartialSequence8]
          refine ⟨rfl,.inr ⟨rfl,rfl,fun _ => rfl,fun _ => ?_,[some character],?_,rfl,?_⟩⟩
          · exact hwide.2.uncut (cons_ne_nil _ _) |>.suffix (suffix_append _ _)
          · rw [text_some,appendCharacter,if_pos (by omega)]
            rfl
          · rw [append_assoc]
            exact hi

/-- A call writes the items of the bytes up to those that wait for more, whatever the chunks to come. -/
theorem decode_decodes (flush : Bool) (addr : Nat) (h : Pending seq) (hu : Uncut (seq ++ source ++ later))
    (hl : flush → later = []) :
    Decodes flush (decode flush false addr seq source) (seq ++ source) later := by
  obtain ⟨he,⟨hup,hb,hr⟩ | ⟨hup,hr⟩⟩ := handlePartialSequence8_reads flush h source hu
  · generalize hh : handlePartialSequence8 flush seq source = done at *
    have hn : decode8 flush false addr seq source = { done with out := [] } := by
      rw [decode8,hh]
      exact if_pos hup
    have hw := handlePartialSequence16_reads flush done.partialSequence done.source later hr hl
    have hd := decode16_eq flush addr done.partialSequence done.source
    rw [hb] at hw
    rw [decode,hn]
    dsimp only
    rw [if_pos hup,hd,he]
    dsimp only [Progress.after]
    split_ifs with hp
    · exact hw.decodes hp
    · exact hw.decodes_close (not_not.1 hp) hl
  · by_cases hp : (handlePartialSequence8 flush seq source).partialSequence = []
    · rw [decode_handled rfl hup hp]
      simpa [he] using hr.decodes_close hp hl
    · have hn : decode8 flush false addr seq source = handlePartialSequence8 flush seq source := by
        rw [decode8]
        exact (if_neg (by simp [hup])).trans (if_pos hp)
      rw [decode,hn,if_neg (by simp [hup])]
      exact hr.decodes hp

end WebKit.Text
