import WebKit.JavaScriptCore.Yarr.IgnoreCase

/-! When a class without regard to case accepts the characters that are equivalent to those that were put. -/
namespace WebKit.JavaScriptCore.Yarr
open CharacterClassConstructor List

inductive Put where
  | char (ch : Int)
  | range (lo hi : Int)

namespace Put

def WellFormed (mode : CanonicalMode) : Put → Prop
  | char ch => mode.IsCodePoint ch
  | range lo hi => mode.IsCodePoint lo ∧ mode.IsCodePoint hi ∧ lo ≤ hi

/-- A character is put. -/
def Names : Put → Int → Prop
  | char ch, x => x = ch
  | range lo hi, x => lo ≤ x ∧ x ≤ hi

/-- The class accepts a character for something that is put: one of the same form or, in a range, on the same side of the ASCII
characters. -/
def Contributes (canonicalize : Int → Int) : Put → Int → Prop
  | char ch, c => canonicalize ch = canonicalize c
  | range lo hi, c => ∃ x, lo ≤ x ∧ x ≤ hi ∧ isASCII x = isASCII c ∧ canonicalize x = canonicalize c

end Put

def CharacterClassConstructor.put (tables : CanonicalTables) (mode : CanonicalMode) (constructor : CharacterClassConstructor) :
    Put → CharacterClassConstructor
  | .char ch => constructor.putChar tables true mode ch
  | .range lo hi => constructor.putRange tables true lo hi

/-- The class of some characters and ranges without regard to case. -/
def ignoreCaseClass (tables : CanonicalTables) (mode : CanonicalMode) (puts : List Put) : CharacterClass :=
  (puts.foldl (put tables mode) .empty).charClass

variable {mode : CanonicalMode} {tables : CanonicalTables} {canon : Int → Int} {puts : List Put} {c : Int}

variable {cc : CharacterClassConstructor}

theorem CorrectTables.put_adds (h : CorrectTables mode tables canon)
    (hw : cc.WellFormed) {put : Put} (hp : put.WellFormed mode) :
    cc.Adds (cc.put tables mode put) fun c => mode.IsCodePoint c ∧ put.Contributes canon c := by
  cases put with
  | char ch => exact h.putChar_adds hw hp
  | range lo hi => exact h.putRange_adds hw hp.1 hp.2.1 hp.2.2

theorem CorrectTables.testCharacterClass_iff (h : CorrectTables mode tables canon)
    (hp : ∀ put ∈ puts, put.WellFormed mode) (hc : mode.IsCodePoint c) :
    testCharacterClass (ignoreCaseClass tables mode puts) c ↔ ∃ put ∈ puts, put.Contributes canon c := by
  have hs (cc : CharacterClassConstructor) (hk : cc.WellFormed) (put) (hpt : put ∈ puts) := h.put_adds hk (hp put hpt)
  have ha := empty_wellFormed.foldl hs
  have hl : mode.lastCodePoint ≤ 0x10FFFF := by cases mode <;> decide
  rw [ignoreCaseClass,ha.wellFormed.testCharacterClass_iff ⟨hc.1,Int.le_trans hc.2 hl⟩,ha.accepts]
  simp [empty_accepts,hc]

/-- A class without regard to case accepts exactly the equivalents of what was put if and only if the equivalents of a character
of a range that are on the other side of the ASCII characters are put otherwise. -/
theorem ignoreCaseClass_iff {canonicalize : Int → Int} (htables : CorrectTables mode tables canonicalize)
    (hputs : ∀ put ∈ puts, put.WellFormed mode) :
    (∀ c, mode.IsCodePoint c → (testCharacterClass (ignoreCaseClass tables mode puts) c = true ↔
        ∃ put ∈ puts, ∃ x, put.Names x ∧ canonicalize x = canonicalize c)) ↔
      ∀ lo hi, .range lo hi ∈ puts → ∀ x c, lo ≤ x → x ≤ hi → mode.IsCodePoint c → isASCII x ≠ isASCII c →
        canonicalize x = canonicalize c → ∃ put ∈ puts, put.Contributes canonicalize c := by
  have ht : ∀ c, mode.IsCodePoint c → _ := fun c hc => htables.testCharacterClass_iff hputs hc
  constructor
  · intro he lo hi hm x c hx hx' hc _ heq
    exact (ht c hc).1 ((he c hc).2 ⟨_,hm,x,⟨hx,hx'⟩,heq⟩)
  · intro hcr c hc
    rw [ht c hc]
    constructor
    · rintro ⟨put,hm,hcn⟩
      cases put with
      | char ch => exact ⟨_,hm,ch,rfl,hcn⟩
      | range lo hi =>
        obtain ⟨x,hx,hx',-,heq⟩ := hcn
        exact ⟨_,hm,x,⟨hx,hx'⟩,heq⟩
    · rintro ⟨put,hm,x,hn,heq⟩
      cases put with
      | char ch => exact ⟨_,hm,(congrArg canonicalize hn).symm.trans heq⟩
      | range lo hi =>
        by_cases hs : isASCII x = isASCII c
        · exact ⟨_,hm,x,hn.1,hn.2,hs,heq⟩
        · exact hcr lo hi hm x c hn.1 hn.2 hc hs heq

/-- The rows of the letters, with the Kelvin sign as a `K` and the long s as an `S`. -/
def letterTables : CanonicalTables where
  rangeInfo := [⟨0,0x40,0,.unique⟩, ⟨0x41,0x4A,0x20,.rangeLo⟩, ⟨0x4B,0x4B,0,.set⟩, ⟨0x4C,0x52,0x20,.rangeLo⟩,
    ⟨0x53,0x53,1,.set⟩, ⟨0x54,0x5A,0x20,.rangeLo⟩, ⟨0x5B,0x60,0,.unique⟩, ⟨0x61,0x6A,0x20,.rangeHi⟩,
    ⟨0x6B,0x6B,0,.set⟩, ⟨0x6C,0x72,0x20,.rangeHi⟩, ⟨0x73,0x73,1,.set⟩, ⟨0x74,0x7A,0x20,.rangeHi⟩,
    ⟨0x7B,0x17E,0,.unique⟩, ⟨0x17F,0x17F,1,.set⟩, ⟨0x180,0x2129,0,.unique⟩, ⟨0x212A,0x212A,0,.set⟩,
    ⟨0x212B,0x10FFFF,0,.unique⟩]
  characterSetInfo := [[0x4B, 0x6B, 0x212A], [0x53, 0x73, 0x17F]]

def letterForm (c : Int) : Int := if c = 0x212A then 0x4B else if c = 0x17F then 0x53 else toASCIIUpper c

private theorem letterTables_contiguous : Contiguous 0 letterTables.rangeInfo 0x110000 := by
  simp [Contiguous,letterTables]

theorem letterForm_spec (c : Int) : c = 0x212A ∧ letterForm c = 0x4B ∨ c = 0x17F ∧ letterForm c = 0x53 ∨
    (0x61 ≤ c ∧ c ≤ 0x7A) ∧ letterForm c = c - 0x20 ∨
    (c < 0x61 ∨ 0x7A < c) ∧ c ≠ 0x212A ∧ c ≠ 0x17F ∧ letterForm c = c := by
  rw [letterForm,CorrectTables.toASCIIUpper_eq]
  split_ifs <;> omega

theorem letterTables_kelvin : letterTables.canonicalCharacterSetInfo 0 = [0x4B, 0x6B, 0x212A] := rfl

theorem letterTables_longS : letterTables.canonicalCharacterSetInfo 1 = [0x53, 0x73, 0x17F] := rfl

/-- The equivalents of a character from its row are those of its form. -/
theorem letterTables_partition {r : CanonicalizationRange} (hr : r ∈ letterTables.rangeInfo) {a b : Int}
    (ha : r.begin ≤ a ∧ a ≤ r.last) :
    r.areEquivalent letterTables a b ↔ CanonicalMode.unicode.IsCodePoint b ∧ letterForm a = letterForm b := by
  rw [CanonicalMode.IsCodePoint,CanonicalMode.lastCodePoint]
  have hf := letterForm_spec a
  have hf' := letterForm_spec b
  simp only [letterTables,mem_cons,not_mem_nil,or_false] at hr
  rcases hr with rfl | rfl | rfl | rfl | rfl | rfl | rfl | rfl | rfl | rfl | rfl | rfl | rfl | rfl | rfl | rfl | rfl <;>
    simp only [CanonicalizationRange.areEquivalent,letterTables_kelvin,letterTables_longS,contains_cons,contains_nil,
      Bool.or_eq_true,Bool.or_false,beq_iff_eq,decide_eq_true_eq] at ha ⊢ <;>
    omega

theorem letterTables_correct : CorrectTables .unicode letterTables letterForm where
  contiguous := letterTables_contiguous
  partition := by
    rintro a ⟨ha,ha'⟩ b
    obtain ⟨i,r,hg,hbg,hl,-⟩ := letterTables_contiguous.exists_row ha (Int.lt_add_one_of_le ha')
    rw [CanonicalTables.areCanonicallyEquivalent_eq letterTables_contiguous hg ⟨hbg,hl⟩,
      letterTables_partition (mem_of_getElem? hg) ⟨hbg,hl⟩]
  short := by decide
  ascii := by
    intro a b ha hb
    rw [isASCII_iff] at ha hb
    have hf := letterForm_spec a
    have hf' := letterForm_spec b
    rw [CorrectTables.toASCIILower_eq,CorrectTables.toASCIILower_eq]
    split_ifs <;> omega
  crossing := by
    intro a b ha hb hs he
    rw [isASCII_iff] at ha hs
    have hf := letterForm_spec a
    have hf' := letterForm_spec b
    refine ⟨rfl,?_⟩
    rw [LoneLetter]
    omega

theorem ignoreCaseClass_letters :
    testCharacterClass (ignoreCaseClass letterTables .unicode [.range 0x61 0x7A, .char 0x6B, .char 0x53]) 0x212A = true ↔
      ∃ put ∈ [Put.range 0x61 0x7A, .char 0x6B, .char 0x53], ∃ x, put.Names x ∧ letterForm x = letterForm 0x212A := by
  refine (ignoreCaseClass_iff letterTables_correct ?_).2 ?_ 0x212A ⟨by decide,by decide⟩
  · simp [Put.WellFormed,CanonicalMode.IsCodePoint,CanonicalMode.lastCodePoint]
  · intro lo hi hm x c hx hx' hc hs he
    simp only [mem_cons,Put.range.injEq,reduceCtorEq,not_mem_nil,or_false] at hm
    have ha : isASCII x := isASCII_iff.2 (by omega)
    have hl := (letterTables_correct.crossing x c ha hc (fun h => hs (ha.trans h.symm)) he).2
    rw [LoneLetter] at hl
    obtain rfl | rfl : x = 0x6B ∨ x = 0x73 := by omega
    · exact ⟨.char 0x6B,by simp,he⟩
    · exact ⟨.char 0x53,by simp,he⟩

/-- The range of the small letters does not accept the Kelvin sign, which is equivalent to `k` and accepted if `k` is put; and the
range of the Kelvin sign does not accept `k`. -/
theorem ignoreCaseClass_range_misses_kelvin :
    CorrectTables .unicode letterTables letterForm ∧ letterForm 0x6B = letterForm 0x212A ∧
      testCharacterClass (ignoreCaseClass letterTables .unicode [.range 0x61 0x7A]) 0x212A = false ∧
      testCharacterClass (ignoreCaseClass letterTables .unicode [.char 0x6B]) 0x212A = true ∧
      testCharacterClass (ignoreCaseClass letterTables .unicode [.range 0x212A 0x212A]) 0x6B = false ∧
      testCharacterClass (ignoreCaseClass letterTables .unicode [.char 0x212A]) 0x6B = true := by
  refine ⟨letterTables_correct,by decide,?_,?_,?_,?_⟩ <;> decide +kernel

end WebKit.JavaScriptCore.Yarr
