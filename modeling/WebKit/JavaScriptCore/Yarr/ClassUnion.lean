import WebKit.JavaScriptCore.Yarr.ClassSteps

/-! A class that regards case accepts exactly the characters that were put or appended. -/
namespace WebKit.JavaScriptCore.Yarr
open CharacterClassConstructor List

/-- The tables of one side of 0x80: their characters, and how one adds to them. -/
structure Side where
  min : Int
  max : Int
  addSorted : CharacterClassConstructor → Int → CharacterClassConstructor
  addSortedRange : CharacterClassConstructor → Int → Int → CharacterClassConstructor

namespace Side

def ascii : Side := ⟨0,0x7F,addASCII,addRangeASCII⟩

def unicode : Side := ⟨0x80,0x10FFFF,addUnicode,addRangeUnicode⟩

variable (side : Side)

def append (cc : CharacterClassConstructor) (chars : List Int) (ranges : List CharacterRange) : CharacterClassConstructor :=
  ranges.foldl (fun cc range => side.addSortedRange cc range.begin range.last) (chars.foldl side.addSorted cc)

def addSortedMatchOrRange (cc : CharacterClassConstructor) (lo hiPlusOne : Int) : CharacterClassConstructor :=
  if lo < hiPlusOne then
    if lo + 1 = hiPlusOne then side.addSorted cc lo else side.addSortedRange cc lo (hiPlusOne-1)
  else cc

def addSortedInverted : CharacterClassConstructor → List CharacterRange → Int → CharacterClassConstructor
  | cc, [], lo => side.addSortedMatchOrRange cc lo (side.max+1)
  | cc, range::ranges, lo => addSortedInverted (side.addSortedMatchOrRange cc lo range.begin) ranges (range.last+1)

/-- The characters, each as a range, and the ranges, in the order in which the loop takes them. -/
def inOrder (chars : List Int) (ranges : List CharacterRange) : List CharacterRange :=
  (chars.map fun ch => ⟨ch,ch⟩).merge ranges fun ch range => ch.begin < range.begin

abbrev Before (range next : CharacterRange) : Prop := range.last < next.begin

/-- Sorted characters and ranges of a side that are all disjoint. -/
structure Table (chars : List Int) (ranges : List CharacterRange) : Prop where
  sorted : Sorted chars
  order : ranges.Pairwise Before
  disjoint : ∀ ch ∈ chars, ∀ range ∈ ranges, ch < range.begin ∨ range.last < ch
  chars_mem : ∀ ch ∈ chars, side.min ≤ ch ∧ ch ≤ side.max
  ranges_mem : ∀ range ∈ ranges, side.min ≤ range.begin ∧ range.begin ≤ range.last ∧ range.last ≤ side.max

/-- What is added on a side is what the class accepts more. -/
structure Exact : Prop where
  addSorted {cc : CharacterClassConstructor} (h : cc.WellFormed) {ch : Int} (hch : side.min ≤ ch ∧ ch ≤ side.max) :
    cc.Adds (side.addSorted cc ch) (· = ch)
  addSortedRange {cc : CharacterClassConstructor} (h : cc.WellFormed) {lo hi : Int}
    (hrange : side.min ≤ lo ∧ lo ≤ hi ∧ hi ≤ side.max) :
    cc.Adds (side.addSortedRange cc lo hi) fun c => lo ≤ c ∧ c ≤ hi

private theorem ascii_exact : ascii.Exact where
  addSorted h _ hch := h.addASCII (isASCII_iff.2 hch)
  addSortedRange h lo hi hrange := (h.addRangeASCII hrange.2.1).congr fun c => by
    simp only [ascii] at hrange
    rw [isASCII_iff]
    omega

private theorem unicode_exact : unicode.Exact where
  addSorted h ch hch := by
    simp only [unicode] at hch
    refine (h.addUnicode fun ha => ?_).congr fun c => ?_
    · rw [isASCII_iff] at ha
      omega
    · rw [isASCII_iff]
      omega
  addSortedRange h lo hi hrange := (h.addRangeUnicode hrange.2.1).congr fun c => by
    simp only [unicode] at hrange
    rw [isASCII_iff]
    omega

section
variable {side : Side} {cc : CharacterClassConstructor} {chars : List Int} {ranges : List CharacterRange} {lo hi : Int}

private theorem merge_pairwise {xs ys : List CharacterRange} (hxs : xs.Pairwise Before)
    (hys : ys.Pairwise Before) (hx : ∀ x ∈ xs, x.begin ≤ x.last)
    (hy : ∀ y ∈ ys, y.begin ≤ y.last) (hds : ∀ x ∈ xs, ∀ y ∈ ys, x.last < y.begin ∨ y.last < x.begin) :
    (xs.merge ys fun x y => x.begin < y.begin).Pairwise Before := by
  fun_induction List.merge xs ys (fun x y => x.begin < y.begin) with
  | case1 ys => exact hys
  | case2 xs => exact hxs
  | case3 x xs y ys hl ih =>
    rw [pairwise_cons] at *
    refine ⟨fun z hz => ?_,by grind⟩
    rw [mem_merge] at hz
    grind
  | case4 x xs y ys hl ih =>
    rw [pairwise_cons] at *
    refine ⟨fun z hz => ?_,by grind⟩
    rw [mem_merge] at hz
    grind

private theorem Table.inOrder (h : side.Table chars ranges) :
    (inOrder chars ranges).Pairwise Before := by
  refine merge_pairwise (pairwise_map.2 h.sorted) h.order ?_ (fun r hr => (h.ranges_mem r hr).2.1) ?_
  · rintro _ hx
    obtain ⟨ch,-,rfl⟩ := mem_map.1 hx
    exact le_rfl
  · rintro _ hx r hr
    obtain ⟨ch,hch,rfl⟩ := mem_map.1 hx
    exact h.disjoint ch hch r hr

private theorem Table.mem_side (h : side.Table chars ranges) {c : Int} : Holds chars ranges c → side.min ≤ c ∧ c ≤ side.max
  | .inl hc => h.chars_mem c hc
  | .inr ⟨r,hr,hc,hc'⟩ => by have := h.ranges_mem r hr; omega

private theorem covers_inOrder {c : Int} : Covers (inOrder chars ranges) c ↔ Holds chars ranges c := by
  simp only [Covers,inOrder,mem_merge,or_and_right,exists_or,Holds,mem_map,exists_exists_and_eq_and]
  refine or_congr ⟨?_,fun hc => ⟨c,hc,le_rfl,le_rfl⟩⟩ Iff.rfl
  rintro ⟨ch,hch,hl,hg⟩
  exact Int.le_antisymm hl hg ▸ hch

variable (hs : side.Exact) (hcc : cc.WellFormed)
include hs hcc

private theorem append_adds (h : side.Table chars ranges) : cc.Adds (side.append cc chars ranges) (Holds chars ranges) := by
  have hcr (k : CharacterClassConstructor) (hk : k.WellFormed) (ch) (hch : ch ∈ chars) :=
    hs.addSorted hk (h.chars_mem ch hch)
  have hrn (k : CharacterClassConstructor) (hk : k.WellFormed) (range) (hr : range ∈ ranges) :=
    hs.addSortedRange hk (h.ranges_mem range hr)
  have hc := hcc.foldl hcr
  exact (hc.trans (hc.wellFormed.foldl hrn)).congr fun c => by simp [Holds,Covers]

private theorem addSortedMatchOrRange_adds (hl : side.min ≤ lo) (hh : hi ≤ side.max + 1) :
    cc.Adds (side.addSortedMatchOrRange cc lo hi) fun c => lo ≤ c ∧ c < hi := by
  rw [addSortedMatchOrRange]
  split_ifs with hlt ho
  · exact (hs.addSorted hcc ⟨hl,by omega⟩).congr fun c => by omega
  · exact (hs.addSortedRange hcc ⟨hl,by omega,by omega⟩).congr fun c => by omega
  · exact (Adds.refl hcc).congr fun c => iff_of_false not_false (by omega)

/-- The gaps between the ranges from a character on are added. -/
theorem addSortedInverted_adds (ho : ranges.Pairwise Before)
    (hm : ∀ r ∈ ranges, lo ≤ r.begin ∧ r.begin ≤ r.last ∧ r.last ≤ side.max) (hlo : side.min ≤ lo) :
    cc.Adds (side.addSortedInverted cc ranges lo) fun c => lo ≤ c ∧ c ≤ side.max ∧ ¬ Covers ranges c := by
  induction ranges generalizing cc lo with
  | nil =>
    refine (addSortedMatchOrRange_adds hs hcc hlo le_rfl).congr fun c => ?_
    rw [and_iff_left not_covers_nil]
    omega
  | cons r ranges ih =>
    obtain ⟨hf,ho⟩ := pairwise_cons.1 ho
    obtain ⟨⟨hb,hle,hl⟩,hm⟩ := forall_mem_cons.1 hm
    have hg := addSortedMatchOrRange_adds hs hcc hlo (show r.begin ≤ side.max + 1 by omega)
    have hr := ih hg.wellFormed ho (fun next hn => ⟨hf next hn,(hm next hn).2⟩) (show side.min ≤ r.last + 1 by omega)
    refine (hg.trans hr).congr fun c => ?_
    have ha : Covers ranges c → r.last < c := fun ⟨next,hn,hc,_⟩ => by have := hf next hn; omega
    rw [covers_cons]
    grind

private theorem appendInverted_adds (h : side.Table chars ranges) :
    cc.Adds (side.addSortedInverted cc (inOrder chars ranges) side.min) fun c =>
      side.min ≤ c ∧ c ≤ side.max ∧ ¬ Holds chars ranges c := by
  refine (addSortedInverted_adds hs hcc h.inOrder (fun r hr => ?_) le_rfl).congr fun c => by rw [covers_inOrder]
  rw [inOrder,mem_merge,mem_map] at hr
  obtain ⟨ch,hch,rfl⟩ | hr := hr
  · exact ⟨(h.chars_mem ch hch).1,le_rfl,(h.chars_mem ch hch).2⟩
  · exact h.ranges_mem r hr

end

end Side

def IsCodePoint (c : Int) : Prop := 0 ≤ c ∧ c ≤ 0x10FFFF

/-- A class that can be appended, as the generated ones can. -/
structure DisjointClass extends CharacterClass where
  ascii : Side.ascii.Table matchesASCII rangesASCII
  unicode : Side.unicode.Table matchesUnicode rangesUnicode

namespace CharacterClass

variable (characterClass : CharacterClass)

/-- A character is in the tables of a class. -/
def Contains (c : Int) : Prop :=
  Holds characterClass.matchesASCII characterClass.rangesASCII c ∨
    Holds characterClass.matchesUnicode characterClass.rangesUnicode c

/-- The tables are sorted, and the ranges do not overlap or touch. -/
structure Ordered : Prop where
  matchesASCII : Sorted characterClass.matchesASCII
  rangesASCII : Separate characterClass.rangesASCII
  matchesUnicode : Sorted characterClass.matchesUnicode
  rangesUnicode : Separate characterClass.rangesUnicode

end CharacterClass

namespace CharacterClassConstructor

def append (cc : CharacterClassConstructor) (other : CharacterClass) : CharacterClassConstructor :=
  Side.unicode.append (Side.ascii.append cc other.matchesASCII other.rangesASCII) other.matchesUnicode other.rangesUnicode

def appendInverted (cc : CharacterClassConstructor) (other : CharacterClass) : CharacterClassConstructor :=
  Side.unicode.addSortedInverted
    (Side.ascii.addSortedInverted cc (Side.inOrder other.matchesASCII other.rangesASCII) Side.ascii.min)
    (Side.inOrder other.matchesUnicode other.rangesUnicode) Side.unicode.min

variable {cc : CharacterClassConstructor}

private theorem WellFormed.ordered (h : cc.WellFormed) : cc.charClass.Ordered := by
  obtain ⟨ha,har,-⟩ := coalesceMatchesAndRanges_spec h.matchesASCII h.rangesASCII 0
  obtain ⟨hu,hur,-⟩ := coalesceMatchesAndRanges_spec h.matchesUnicode h.rangesUnicode 0
  exact ⟨ha,har,hu,hur⟩

variable (hcc : cc.WellFormed) (other : DisjointClass)
include hcc

private theorem append_adds : cc.Adds (cc.append other.toCharacterClass) other.Contains :=
  have ha := Side.append_adds Side.ascii_exact hcc other.ascii
  ha.trans (Side.append_adds Side.unicode_exact ha.wellFormed other.unicode)

private theorem appendInverted_adds :
    cc.Adds (cc.appendInverted other.toCharacterClass) fun c => IsCodePoint c ∧ ¬ other.Contains c := by
  have ha := Side.appendInverted_adds Side.ascii_exact hcc other.ascii
  have hu := Side.appendInverted_adds Side.unicode_exact ha.wellFormed other.unicode
  refine (ha.trans hu).congr fun c => ?_
  -- The tables of a side have no characters of the other.
  have hl := other.ascii.mem_side (c := c)
  have hh := other.unicode.mem_side (c := c)
  simp only [Side.ascii,Side.unicode,IsCodePoint,CharacterClass.Contains] at hl hh ⊢
  grind

private theorem putRange_false_adds {lo hi : Int} (ts : CanonicalTables) (h : 0 ≤ lo ∧ lo ≤ hi) :
    cc.Adds (cc.putRange ts false lo hi) fun c => lo ≤ c ∧ c ≤ hi := by
  rw [putRange]
  simp only [putRangeASCII,putRangeUnicode,Bool.not_false,if_true]
  have ha (hl : isASCII lo) := hcc.addRangeASCII (show lo ≤ min hi 0x7F by rw [isASCII_iff] at hl; omega)
  split_ifs with hh hl hl <;> simp only [isASCII_iff] at ha hl hh
  · exact (ha hl).congr fun c => by omega
  · omega
  · refine ((ha hl).trans ((ha hl).wellFormed.addRangeUnicode (by omega))).congr fun c => ?_
    rw [isASCII_iff]
    omega
  · exact (hcc.addRangeUnicode (by omega)).congr fun c => by rw [isASCII_iff]; omega

end CharacterClassConstructor

inductive Call where
  | putChar (ch : Int)
  | putRange (lo hi : Int) (h : 0 ≤ lo ∧ lo ≤ hi)
  | append (other : DisjointClass)
  | appendInverted (other : DisjointClass)

namespace Call

/-- A call where case is regarded. -/
def run (tables : CanonicalTables) (mode : CanonicalMode) (cc : CharacterClassConstructor) : Call → CharacterClassConstructor
  | putChar ch => cc.putChar tables false mode ch
  | putRange lo hi _ => cc.putRange tables false lo hi
  | append other => cc.append other.toCharacterClass
  | appendInverted other => cc.appendInverted other.toCharacterClass

/-- A character is put or appended. -/
def Puts : Call → Int → Prop
  | putChar ch, c => c = ch
  | putRange lo hi _, c => lo ≤ c ∧ c ≤ hi
  | append other, c => other.Contains c
  | appendInverted other, c => IsCodePoint c ∧ ¬ other.Contains c

private theorem run_adds (ts : CanonicalTables) (m : CanonicalMode) (cc : CharacterClassConstructor) (hcc : cc.WellFormed) :
    ∀ c : Call, cc.Adds (c.run ts m cc) c.Puts
  | putChar ch => hcc.addSorted ch
  | putRange _ _ h => putRange_false_adds hcc ts h
  | append other => append_adds hcc other
  | appendInverted other => appendInverted_adds hcc other

end Call

def unionClass (tables : CanonicalTables) (mode : CanonicalMode) (calls : List Call) : CharacterClass :=
  (calls.foldl (fun cc call => call.run tables mode cc) empty).charClass

/-- Without case folding a finished class accepts exactly the code points that were put or appended, its tables are in order and
it is taken to accept any character only if all were put or appended. -/
theorem unionClass_exact (tables : CanonicalTables) (mode : CanonicalMode) (calls : List Call) :
    (∀ c, IsCodePoint c →
      (testCharacterClass (unionClass tables mode calls) c = true ↔ ∃ call ∈ calls, call.Puts c)) ∧
    (unionClass tables mode calls).Ordered ∧
    ((unionClass tables mode calls).anyCharacter = true → ∀ c, IsCodePoint c → ∃ call ∈ calls, call.Puts c) := by
  have ha := empty_wellFormed.foldl fun cc hcc call (_ : call ∈ calls) => call.run_adds tables mode cc hcc
  have hif (c) (hc : IsCodePoint c) :
      testCharacterClass (unionClass tables mode calls) c ↔ ∃ call ∈ calls, call.Puts c := by
    rw [unionClass,ha.wellFormed.testCharacterClass_iff hc,ha.accepts,or_iff_right empty_accepts]
  refine ⟨hif,ha.wellFormed.ordered,fun han c hc => (hif c hc).1 ?_⟩
  rw [testCharacterClass,if_pos han]

/-- The generated class of the digits. -/
def digits : DisjointClass where
  matchesASCII := []
  rangesASCII := [⟨0x30,0x39⟩]
  matchesUnicode := []
  rangesUnicode := []
  hasNonBMPCharacters := false
  anyCharacter := false
  ascii := ⟨.nil,pairwise_singleton _ _,nofun,nofun,forall_mem_singleton.2 (by decide)⟩
  unicode := ⟨.nil,.nil,nofun,nofun,nofun⟩

/-- A digit is in the class that digits are appended to, and a letter in the one that gets their complement too. -/
theorem unionClass_exact_digits :
    testCharacterClass (unionClass ⟨[],[]⟩ .ucs2 [.append digits]) 0x35 = true ∧
      testCharacterClass (unionClass ⟨[],[]⟩ .ucs2 [.append digits, .appendInverted digits]) 0x61 = true := by
  constructor
  · refine ((unionClass_exact ⟨[],[]⟩ .ucs2 [.append digits]).1 0x35 ⟨by decide,by decide⟩).2 ?_
    exact ⟨.append digits,mem_cons_self,.inl (.inr ⟨_,mem_cons_self,by decide⟩)⟩
  · refine ((unionClass_exact ⟨[],[]⟩ .ucs2 [.append digits, .appendInverted digits]).1 0x61 ⟨by decide,by decide⟩).2 ?_
    refine ⟨.appendInverted digits,mem_cons_of_mem _ mem_cons_self,⟨by decide,by decide⟩,?_⟩
    simp [CharacterClass.Contains,Holds,Covers,digits]

end WebKit.JavaScriptCore.Yarr
