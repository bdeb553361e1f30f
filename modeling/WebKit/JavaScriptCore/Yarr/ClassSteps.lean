import WebKit.JavaScriptCore.Yarr.SortedTables

/-! What every addition to a character class under construction does to the characters that the class accepts. -/
namespace WebKit.JavaScriptCore.Yarr

/-- The letters whose equivalents are not all ASCII characters. No two are next to each other. -/
def LoneLetter (c : Int) : Prop := c = 0x4B ∨ c = 0x53 ∨ c = 0x6B ∨ c = 0x73

theorem isASCII_iff {c : Int} : isASCII c ↔ 0 ≤ c ∧ c ≤ 0x7F := by simp [isASCII]

namespace CharacterClassConstructor

/-- The tables are in order. ASCII characters are in the other table only if they are not neighbours. -/
structure WellFormed (constructor : CharacterClassConstructor) : Prop where
  matchesASCII : Sorted constructor.matchesASCII
  rangesASCII : Separate constructor.rangesASCII
  matchesUnicode : Sorted constructor.matchesUnicode
  rangesUnicode : Separate constructor.rangesUnicode
  lone : ∀ c ∈ constructor.matchesUnicode, isASCII c = true → LoneLetter c

/-- The class to construct accepts a character: it is in the tables of its side. -/
def Accepts (constructor : CharacterClassConstructor) (c : Int) : Prop :=
  if isASCII c then Holds constructor.matchesASCII constructor.rangesASCII c
  else Holds constructor.matchesUnicode constructor.rangesUnicode c

/-- A step keeps the tables in order, and the class then accepts some more characters. -/
structure Adds (constructor next : CharacterClassConstructor) (new : Int → Prop) : Prop where
  wellFormed : next.WellFormed
  accepts : ∀ c, next.Accepts c ↔ constructor.Accepts c ∨ new c

variable {cc middle next : CharacterClassConstructor} {lo hi ch : Int}

theorem Adds.refl (h : cc.WellFormed) : cc.Adds cc fun _ => False :=
  ⟨h,fun _ => (or_false _).symm ▸ Iff.rfl⟩

theorem Adds.trans {new m : Int → Prop} (h : cc.Adds middle new) (h' : middle.Adds next m) :
    cc.Adds next fun c => new c ∨ m c :=
  ⟨h'.wellFormed,fun c => by rw [h'.accepts,h.accepts,or_assoc]⟩

theorem Adds.congr {new more : Int → Prop} (h : cc.Adds next new) (he : ∀ c, new c ↔ more c) :
    cc.Adds next more := ⟨h.wellFormed,fun c => by rw [h.accepts,he]⟩

theorem accepts_ascii {c : Int} (hc : isASCII c) :
    cc.Accepts c ↔ Holds cc.matchesASCII cc.rangesASCII c := by rw [Accepts,if_pos hc]

theorem accepts_unicode {c : Int} (hc : ¬ isASCII c) :
    cc.Accepts c ↔ Holds cc.matchesUnicode cc.rangesUnicode c := by rw [Accepts,if_neg hc]

theorem WellFormed.addRangeASCII (h : cc.WellFormed) (hl : lo ≤ hi) :
    cc.Adds (cc.addRangeASCII lo hi) fun c => isASCII c ∧ lo ≤ c ∧ c ≤ hi := by
  obtain ⟨hs,hcv,-⟩ := addSortedRange_spec hl h.rangesASCII
  refine ⟨⟨h.matchesASCII,hs,h.matchesUnicode,h.rangesUnicode,h.lone⟩,fun c => ?_⟩
  by_cases hc : isASCII c
  · rw [accepts_ascii hc,accepts_ascii hc,Holds,CharacterClassConstructor.addRangeASCII,hcv,Holds]
    tauto
  · rw [accepts_unicode hc,accepts_unicode hc]
    simp [hc,CharacterClassConstructor.addRangeASCII]

theorem WellFormed.addRangeUnicode (h : cc.WellFormed) (hl : lo ≤ hi) :
    cc.Adds (cc.addRangeUnicode lo hi) fun c => ¬ isASCII c ∧ lo ≤ c ∧ c ≤ hi := by
  obtain ⟨hs,hcv,-⟩ := addSortedRange_spec hl h.rangesUnicode
  refine ⟨⟨h.matchesASCII,h.rangesASCII,h.matchesUnicode,hs,h.lone⟩,fun c => ?_⟩
  by_cases hc : isASCII c
  · rw [accepts_ascii hc,accepts_ascii hc]
    simp [hc,CharacterClassConstructor.addRangeUnicode]
  · rw [accepts_unicode hc,accepts_unicode hc,Holds,CharacterClassConstructor.addRangeUnicode,hcv,Holds]
    tauto

theorem chop_adds {cs : List Int} (h : Sorted cs) (ch : Int) : (chop cs ch 0 cs.length).Adds cs ch :=
  chop_spec h (by omega) ⟨by simp,by simp⟩

section
variable (h : cc.WellFormed)
include h

theorem WellFormed.addJoined (ch : Int) {rn : Option CharacterRange}
    (hr : ∀ r ∈ rn, r.begin ≤ r.last) :
    cc.Adds (cc.addJoined ch rn) fun c =>
      isASCII c = isASCII ch ∧ ∃ r ∈ rn, r.begin ≤ c ∧ c ≤ r.last := by
  cases rn with
  | none => exact (Adds.refl h).congr fun c => by simp
  | some rn =>
    rw [CharacterClassConstructor.addJoined]
    split_ifs with hc
    · exact (h.addRangeASCII (hr rn rfl)).congr fun c => by simp [hc]
    · exact (h.addRangeUnicode (hr rn rfl)).congr fun c => by simp [hc]

theorem WellFormed.addASCII (hch : isASCII ch) : cc.Adds (cc.addASCII ch) (· = ch) := by
  obtain ⟨hs,hmm,hrn⟩ := chop_adds h.matchesASCII ch
  have hm : WellFormed { cc with
      matchesASCII := (chop cc.matchesASCII ch 0 cc.matchesASCII.length).characters
      hasNonBMPCharacters := cc.hasNonBMPCharacters || ch > 0xFFFF } :=
    ⟨hs,h.rangesASCII,h.matchesUnicode,h.rangesUnicode,h.lone⟩
  have hj := hm.addJoined ch (fun r hr => Int.le_of_lt (hrn r hr).2.2)
  refine ⟨hj.wellFormed,fun c => (hj.accepts c).trans ?_⟩
  by_cases hc : isASCII c
  · rw [accepts_ascii hc,accepts_ascii hc,Holds,Holds,or_right_comm,or_right_comm (b := Covers _ c),← hmm c]
    simp [hc,hch]
  · have hn : c ≠ ch := fun he => hc (he ▸ hch)
    rw [accepts_unicode hc,accepts_unicode hc]
    simp [hc,hch,hn]

/-- A lone letter has no neighbours in the table, so it is not joined with any. -/
theorem WellFormed.chop_range_of_lone (hch : LoneLetter ch) :
    (chop cc.matchesUnicode ch 0 cc.matchesUnicode.length).range = none := by
  obtain ⟨-,hm,hrn⟩ := chop_adds h.matchesUnicode ch
  have hf : ∀ c, c = ch - 1 ∨ c = ch + 1 → c ∉ cc.matchesUnicode := by
    intro c hc hm
    rw [LoneLetter] at hch
    have hl := h.lone c hm (isASCII_iff.2 (by omega))
    rw [LoneLetter] at hl
    omega
  refine Option.eq_none_iff_forall_not_mem.2 fun r hr => ?_
  obtain ⟨hb,hls,hlt⟩ := hrn r hr
  rcases Int.lt_or_eq_of_le hb with hb | hb
  · have := (hm (ch-1)).1 (.inr ⟨r,hr,by omega,by omega⟩)
    exact hf (ch-1) (.inl rfl) (this.resolve_right (by omega))
  · have := (hm (ch+1)).1 (.inr ⟨r,hr,by omega,by omega⟩)
    exact hf (ch+1) (.inr rfl) (this.resolve_right (by omega))

/-- A character is added to the other table. It is accepted unless it is an ASCII character. -/
theorem WellFormed.addUnicode (hch : isASCII ch → LoneLetter ch) :
    cc.Adds (cc.addUnicode ch) fun c => ¬ isASCII c ∧ c = ch := by
  obtain ⟨hsr,hmm,hrn⟩ := chop_adds h.matchesUnicode ch
  have hl : ∀ c, c ∈ cc.matchesUnicode ∨ c = ch → isASCII c → LoneLetter c := by
    rintro c (hc | rfl)
    · exact h.lone c hc
    · exact hch
  have hm : WellFormed { cc with
      matchesUnicode := (chop cc.matchesUnicode ch 0 cc.matchesUnicode.length).characters
      hasNonBMPCharacters := cc.hasNonBMPCharacters || ch > 0xFFFF } :=
    ⟨h.matchesASCII,h.rangesASCII,hsr,h.rangesUnicode,fun c hc => hl c ((hmm c).1 (.inl hc))⟩
  have hj := hm.addJoined ch (fun r hr => Int.le_of_lt (hrn r hr).2.2)
  refine ⟨hj.wellFormed,fun c => (hj.accepts c).trans ?_⟩
  have hrm : isASCII c = isASCII ch ∧ (∃ r ∈ (chop cc.matchesUnicode ch 0 cc.matchesUnicode.length).range,
        r.begin ≤ c ∧ c ≤ r.last) ↔
      ¬ isASCII c ∧ ∃ r ∈ (chop cc.matchesUnicode ch 0 cc.matchesUnicode.length).range,
        r.begin ≤ c ∧ c ≤ r.last := by
    cases hs : isASCII ch with
    | false => simp
    | true => simp [h.chop_range_of_lone (hch hs)]
  rw [hrm]
  by_cases hc : isASCII c
  · rw [accepts_ascii hc,accepts_ascii hc]
    simp [hc]
  · rw [accepts_unicode hc,accepts_unicode hc,Holds,Holds,or_right_comm,or_right_comm (b := Covers _ c),and_iff_right hc,
      and_iff_right hc,← hmm c]

theorem WellFormed.addSorted (ch : Int) : cc.Adds (cc.addSorted ch) (· = ch) := by
  rw [CharacterClassConstructor.addSorted]
  split_ifs with hc
  · exact h.addASCII hc
  · refine (h.addUnicode fun ha => absurd ha hc).congr fun c => and_iff_right_of_imp ?_
    exact fun he => he ▸ hc

theorem WellFormed.foldl {α : Type} {step : CharacterClassConstructor → α → CharacterClassConstructor} {new : α → Int → Prop}
    {ss : List α} (hs : ∀ (cc : CharacterClassConstructor), cc.WellFormed → ∀ a ∈ ss, cc.Adds (step cc a) (new a)) :
    cc.Adds (ss.foldl step cc) fun c => ∃ a ∈ ss, new a c := by
  induction ss generalizing cc with
  | nil => exact (Adds.refl h).congr fun c => by simp
  | cons a ss ih =>
    have hf := hs cc h a List.mem_cons_self
    have hr := ih hf.wellFormed fun k hk b hb => hs k hk b (List.mem_cons_of_mem a hb)
    exact (hf.trans hr).congr fun c => by simp

/-- The finished class accepts what is in the tables. -/
theorem WellFormed.testCharacterClass_iff {c : Int} (hc : 0 ≤ c ∧ c ≤ 0x10FFFF) :
    testCharacterClass cc.charClass c ↔ cc.Accepts c := by
  obtain ⟨ha,har,hah⟩ := coalesceMatchesAndRanges_spec h.matchesASCII h.rangesASCII 0
  obtain ⟨hu,hur,huh⟩ := coalesceMatchesAndRanges_spec h.matchesUnicode h.rangesUnicode 0
  rw [testCharacterClass]
  split_ifs with han hs
  · rw [CharacterClassConstructor.charClass] at han
    simp only [Bool.and_eq_true,decide_eq_true_eq] at han
    obtain ⟨⟨-,haa⟩,hau⟩ := han
    refine iff_of_true rfl ?_
    by_cases hs : isASCII c
    · rw [accepts_ascii hs,← hah,haa]
      exact .inr ⟨_,List.mem_singleton_self _,isASCII_iff.1 hs⟩
    · rw [accepts_unicode hs,← huh,hau]
      rw [isASCII_iff] at hs
      have hl : 0x80 ≤ c := by omega
      exact .inr ⟨_,List.mem_singleton_self _,hl,hc.2⟩
  · rw [accepts_unicode (by simpa using hs),← huh,Bool.or_eq_true]
    exact or_congr (searchMatches_iff hu) (searchRanges_iff hur)
  · rw [accepts_ascii (by simpa using hs),← hah,Bool.or_eq_true]
    exact or_congr (searchMatches_iff ha) (searchRanges_iff har)

end

theorem empty_wellFormed : empty.WellFormed :=
  ⟨.nil,separate_nil,.nil,separate_nil,by simp [empty]⟩

theorem empty_accepts {c : Int} : ¬ empty.Accepts c := by
  simp [Accepts,Holds,empty,not_covers_nil]

end CharacterClassConstructor

end WebKit.JavaScriptCore.Yarr
