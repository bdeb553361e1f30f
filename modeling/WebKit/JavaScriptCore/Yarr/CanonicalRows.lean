import WebKit.JavaScriptCore.Yarr.ClassSteps

/-! Tables that are a correct partition of the code points, and the row of a code point. -/
namespace WebKit.JavaScriptCore.Yarr
open List

def CanonicalMode.lastCodePoint : CanonicalMode → Int
  | .ucs2 => 0xFFFF
  | .unicode => 0x10FFFF

/-- The characters that a pattern of a mode is made of. -/
def CanonicalMode.IsCodePoint (mode : CanonicalMode) (c : Int) : Prop := 0 ≤ c ∧ c ≤ mode.lastCodePoint

/-- The rows follow each other from one character up to another. -/
def Contiguous (start : Int) : List CanonicalizationRange → Int → Prop
  | [], stop => start = stop
  | row::rows, stop => row.begin = start ∧ row.begin ≤ row.last ∧ Contiguous (row.last+1) rows stop

/-- The tables partition the code points into those of one canonical form. The sets are of 16-bit characters. ASCII characters
have one form if they differ in case only; a form is that of an ASCII character and of others only in the Unicode mode, for `K`
and for `S`. -/
structure CorrectTables (mode : CanonicalMode) (tables : CanonicalTables) (canonicalize : Int → Int) : Prop where
  contiguous : Contiguous 0 tables.rangeInfo (mode.lastCodePoint+1)
  partition : ∀ a, mode.IsCodePoint a → ∀ b,
    areCanonicallyEquivalent tables a b = true ↔ mode.IsCodePoint b ∧ canonicalize a = canonicalize b
  short : ∀ set ∈ tables.characterSetInfo, ∀ c ∈ set, 0 < c ∧ c ≤ 0xFFFF
  ascii : ∀ a b, isASCII a = true → isASCII b = true → (canonicalize a = canonicalize b ↔ toASCIILower a = toASCIILower b)
  crossing : ∀ a b, isASCII a = true → mode.IsCodePoint b → ¬ isASCII b = true → canonicalize a = canonicalize b →
    mode = .unicode ∧ LoneLetter a

section Rows

variable {start stop ch : Int} {rows : List CanonicalizationRange} {row : CanonicalizationRange}

section
variable (h : Contiguous start rows stop)
include h

theorem Contiguous.begin_ge : ∀ row ∈ rows, start ≤ row.begin ∧ row.begin ≤ row.last := by
  induction rows generalizing start with
  | nil => simp
  | cons row rows ih =>
    obtain ⟨rfl,hl,hr⟩ := h
    refine forall_mem_cons.2 ⟨⟨Int.le_refl _,hl⟩,fun next hn => ?_⟩
    have := ih hr next hn
    omega

theorem Contiguous.last_lt {next : CanonicalizationRange} {i j : Nat} (hij : i < j)
    (hi : rows[i]? = some row) (hj : rows[j]? = some next) : row.last < next.begin := by
  have ho : rows.Pairwise fun row next => row.last < next.begin := by
    clear hi hj
    induction rows generalizing start with
    | nil => exact .nil
    | cons row rows ih =>
      obtain ⟨-,-,hr⟩ := h
      refine pairwise_cons.2 ⟨fun next hn => ?_,ih hr⟩
      have := hr.begin_ge next hn
      omega
  obtain ⟨hil,rfl⟩ := List.getElem?_eq_some_iff.1 hi
  obtain ⟨hjl,rfl⟩ := List.getElem?_eq_some_iff.1 hj
  exact pairwise_iff_getElem.1 ho i j hil hjl hij

theorem Contiguous.exists_row (hs : start ≤ ch) (hst : ch < stop) :
    ∃ i row, rows[i]? = some row ∧ row.begin ≤ ch ∧ ch ≤ row.last ∧ Contiguous row.begin (rows.drop i) stop := by
  induction rows generalizing start with
  | nil =>
    have : start = stop := h
    omega
  | cons row rows ih =>
    obtain ⟨hb,hle,hr⟩ := h
    by_cases hl : ch ≤ row.last
    · exact ⟨0,row,rfl,by omega,hl,rfl,hle,hr⟩
    · obtain ⟨i,next,hg,hrw⟩ := ih hr (by omega)
      exact ⟨i + 1,next,hg,hrw⟩

end

end Rows

namespace CanonicalTables

variable {tables : CanonicalTables} {start stop ch : Int} {row : CanonicalizationRange} {i : Nat}

section
variable (h : Contiguous start tables.rangeInfo stop)
  (hg : tables.rangeInfo[i]? = some row)
  (hrw : row.begin ≤ ch ∧ ch ≤ row.last)
include h hg hrw

private theorem searchRangeInfo_eq
    {inf es : Nat} (he : inf + es ≤ tables.rangeInfo.length)
    (hi : inf ≤ i ∧ i < inf + es) : tables.searchRangeInfo ch inf es = some i := by
  -- Where the candidate is before or after the row, its characters are too.
  have hcm : ∀ j c, tables.rangeInfo[j]? = some c →
      c.begin ≤ c.last ∧ (j < i → c.last < row.begin) ∧ (i < j → row.last < c.begin) ∧
        (i = j → row = c) := by
    refine fun j c hj => ⟨(h.begin_ge c (mem_of_getElem? hj)).2,fun hlt => h.last_lt hlt hj hg,
      fun hlt => h.last_lt hlt hg hj,?_⟩
    rintro rfl
    exact Option.some.inj (hg.symm.trans hj)
  fun_induction searchRangeInfo tables ch inf es with
  | case1 => omega
  | case2 inf es hp c hn =>
    rw [getElem?_eq_none_iff] at hn
    omega
  | case3 inf es hp c ci hc hb ih =>
    obtain ⟨hle,hbf,ha,hs⟩ := hcm _ _ hc
    refine ih (by omega) ⟨hi.1,?_⟩
    rcases Nat.lt_trichotomy i (inf+c) with hlt | heq | hgt
    · exact hlt
    · rw [hs heq] at hrw
      omega
    · omega
  | case4 inf es hp c ci hc hb hl =>
    obtain ⟨hle,hbf,ha,hs⟩ := hcm _ _ hc
    rcases Nat.lt_trichotomy i (inf+c) with hlt | heq | hgt
    · omega
    · rw [heq]
    · have := hbf hgt
      omega
  | case5 inf es hp c ci hc hb hl ih =>
    obtain ⟨hle,hbf,ha,hs⟩ := hcm _ _ hc
    refine ih (by omega) ⟨?_,by omega⟩
    rcases Nat.lt_trichotomy i (inf+c) with hlt | heq | hgt
    · omega
    · rw [hs heq] at hrw
      omega
    · exact hgt

theorem canonicalRangeInfoFor_eq : tables.canonicalRangeInfoFor ch = some i := by
  have hl := (List.getElem?_eq_some_iff.1 hg).1
  exact searchRangeInfo_eq h hg hrw (by omega) (by omega)

theorem areCanonicallyEquivalent_eq
    (c : Int) :
    areCanonicallyEquivalent tables ch c = row.areEquivalent tables ch c := by
  rw [areCanonicallyEquivalent,canonicalRangeInfoFor_eq h hg hrw,Option.bind_some,hg]

end

end CanonicalTables

end WebKit.JavaScriptCore.Yarr
