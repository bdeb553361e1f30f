import WebKit.Base.StepFunction
import WebKit.Graphics.Region

/-! Segments as truth values on the line, and what merging the segments of two spans computes. -/
namespace WebKit.Graphics

open Base.StepFunction Shape List

/-- A column is inside the segments when it is behind an odd number of their ends. -/
def inside (segments : List Int) (x : Int) : Bool := valueAt false (toggles false segments) x

/-- The ends ascend, and the last segment is closed. -/
structure SegmentsOk (segments : List Int) : Prop where
  ascending : segments.Pairwise (· < ·)
  closed : finalValue false (toggles false segments) = false

/-- The flag for being inside each of two spans. -/
def flagOf (b1 b2 : Bool) : Nat := b1.toNat + 2*b2.toNat

/-- The operation keeps the columns that a truth function of the two spans picks. -/
structure Operation.Computes (op : Operation) (f : Bool → Bool → Bool) : Prop where
  flag : ∀ b1 b2 c1 c2, (b1, b2) ≠ (c1, c2) → ((flagOf b1 b2 = op.opCode ∨ flagOf c1 c2 = op.opCode) ↔ f b1 b2 ≠ f c1 c2)
  left : ∀ b, f b false = (b && op.shouldAddRemainingSegmentsFromSpan1)
  right : ∀ b, f false b = (b && op.shouldAddRemainingSegmentsFromSpan2)
  spans1 : op.shouldAddRemainingSpansFromShape1 = op.shouldAddRemainingSegmentsFromSpan1
  spans2 : op.shouldAddRemainingSpansFromShape2 = op.shouldAddRemainingSegmentsFromSpan2
  simple : ∀ {shape1 shape2 result}, op.trySimpleOperation shape1 shape2 = some result →
    shape1.isEmpty ∧ result = shape2 ∧ op.shouldAddRemainingSpansFromShape2

theorem unionOperation_computes : unionOperation.Computes (· || ·) where
  flag := by decide
  left := by decide
  right := by decide
  spans1 := rfl
  spans2 := rfl
  simple h := by
    obtain ⟨he,heq⟩ := Option.ite_none_right_eq_some.1 h
    exact ⟨he,(Option.some.inj heq).symm,rfl⟩

theorem intersectOperation_computes : intersectOperation.Computes (· && ·) where
  flag := by decide
  left := by decide
  right := by decide
  spans1 := rfl
  spans2 := rfl
  simple h := nomatch h

theorem subtractOperation_computes : subtractOperation.Computes (fun b1 b2 => b1 && !b2) where
  flag := by decide
  left := by decide
  right := by decide
  spans1 := rfl
  spans2 := rfl
  simple h := nomatch h

section
variable {op : Operation} {f : Bool → Bool → Bool}

private theorem flagOf_xor_one (b1 b2 : Bool) : flagOf b1 b2 ^^^ 1 = flagOf (!b1) b2 := by
  cases b1 <;> cases b2 <;> rfl

private theorem flagOf_xor_two (b1 b2 : Bool) : flagOf b1 b2 ^^^ 2 = flagOf b1 (!b2) := by
  cases b1 <;> cases b2 <;> rfl

variable {s1 s2 : List Int} {flag : Nat}

private theorem mergeSegments_of_lt {x1 x2 : Int} (h : x1 < x2) : mergeSegments op flag (x1::s1) (x2::s2) =
      if flag ^^^ 1 = op.opCode ∨ flag = op.opCode then x1 :: mergeSegments op (flag ^^^ 1) s1 (x2::s2)
      else mergeSegments op (flag ^^^ 1) s1 (x2::s2) := by
  rw [mergeSegments]
  simp only [show x1 - x2 ≤ 0 by omega,show ¬ x1 - x2 ≥ 0 by omega,if_true,if_false]

private theorem mergeSegments_of_gt {x1 x2 : Int} (h : x2 < x1) : mergeSegments op flag (x1::s1) (x2::s2) =
      if flag ^^^ 2 = op.opCode ∨ flag = op.opCode then x2 :: mergeSegments op (flag ^^^ 2) (x1::s1) s2
      else mergeSegments op (flag ^^^ 2) (x1::s1) s2 := by
  rw [mergeSegments]
  simp only [show ¬ x1 - x2 ≤ 0 by omega,show x1 - x2 ≥ 0 by omega,if_true,if_false]

private theorem mergeSegments_of_eq {x : Int} : mergeSegments op flag (x::s1) (x::s2) =
      if flag ^^^ 1 ^^^ 2 = op.opCode ∨ flag = op.opCode then x :: mergeSegments op (flag ^^^ 1 ^^^ 2) s1 s2
      else mergeSegments op (flag ^^^ 1 ^^^ 2) s1 s2 := by
  rw [mergeSegments]
  simp only [show x - x ≤ 0 by omega,show x - x ≥ 0 by omega,if_true]

theorem mergeSegments_nil_right (flag : Nat) (s : List Int) :
    mergeSegments op flag s [] = if op.shouldAddRemainingSegmentsFromSpan1 then s else [] := by
  cases s <;> simp [mergeSegments]

theorem mergeSegments_nil_left (flag : Nat) (s : List Int) :
    mergeSegments op flag [] s = if op.shouldAddRemainingSegmentsFromSpan2 then s else [] := by
  cases s <;> simp [mergeSegments]

private theorem map_fst_coalesce_cons (ho : op.Computes f) {b1 b2 c1 c2 : Bool} (h : (c1, c2) ≠ (b1, b2)) (x : Int)
    (bs : List (Int × Bool)) :
    (coalesce (f b1 b2) ((x, f c1 c2) :: bs)).map Prod.fst =
      if flagOf c1 c2 = op.opCode ∨ flagOf b1 b2 = op.opCode then x :: (coalesce (f c1 c2) bs).map Prod.fst
      else (coalesce (f c1 c2) bs).map Prod.fst := by
  simp only [ho.flag c1 c2 b1 b2 h,coalesce]
  split_ifs with he hn
  · exact absurd he hn
  · rw [he]
  · rfl

private theorem map_fst_coalesce_map {g : Bool → Bool} {k : Bool} (b : Bool) (s : List Int) (hg : ∀ b, g b = (b && k)) :
    (coalesce (b && k) ((toggles b s).map fun e => (e.1, g e.2))).map Prod.fst = if k then s else [] := by
  cases k with
  | false => rw [coalesce_of_constant (by simp [hg])]; rfl
  | true =>
    have hi : ((toggles b s).map fun e => (e.1, g e.2)) = toggles b s := by simp [hg]
    rw [hi,Bool.and_true,coalesce_of_alternates (toggles_alternates b s),map_fst_toggles,if_pos rfl]

/-- Merging two spans is a sweep over the truth values of both. -/
theorem mergeSegments_eq (ho : op.Computes f) {b1 b2 : Bool}
    (h1 : finalValue b1 (toggles b1 s1) = false) (h2 : finalValue b2 (toggles b2 s2) = false) :
    mergeSegments op (flagOf b1 b2) s1 s2 =
      (coalesce (f b1 b2) (combine f b1 b2 (toggles b1 s1) (toggles b2 s2))).map Prod.fst := by
  induction s1 generalizing b1 b2 s2 with
  | nil =>
    obtain rfl : b1 = false := h1
    rw [mergeSegments_nil_left,toggles,combine,ho.right,map_fst_coalesce_map b2 s2 ho.right]
  | cons x1 s1 ih =>
    induction s2 generalizing b2 with
    | nil =>
      obtain rfl : b2 = false := h2
      rw [mergeSegments_nil_right,toggles,toggles,combine,ho.left,← toggles,
        map_fst_coalesce_map b1 (x1::s1) ho.left]
      simp
    | cons x2 s2 ih2 =>
      have hc : finalValue (!b2) (toggles (!b2) s2) = false := h2
      rw [toggles,toggles,combine]
      rcases lt_trichotomy x1 x2 with hl | rfl | hg
      · rw [if_pos hl,map_fst_coalesce_cons ho (by simp),mergeSegments_of_lt hl,flagOf_xor_one,ih h1 h2,toggles]
      · rw [if_neg (lt_irrefl x1),if_neg (lt_irrefl x1),map_fst_coalesce_cons ho (by simp),mergeSegments_of_eq,
          flagOf_xor_one,flagOf_xor_two,ih h1 hc]
      · rw [if_neg hg.not_gt,if_pos hg,map_fst_coalesce_cons ho (by simp),mergeSegments_of_gt hg,flagOf_xor_two,
          ih2 hc,toggles]

section
variable (ho : op.Computes f) (h1 : SegmentsOk s1) (h2 : SegmentsOk s2)
include ho h1 h2

theorem toggles_mergeSegments :
    toggles false (mergeSegments op 0 s1 s2) =
      coalesce false (combine f false false (toggles false s1) (toggles false s2)) := by
  have hf : f false false = false := ho.left false
  have hm := mergeSegments_eq ho h1.closed h2.closed
  rw [hf] at hm
  rw [show (0 : Nat) = flagOf false false from rfl,hm,toggles_map_fst (coalesce_alternates _ _)]

theorem inside_mergeSegments (x : Int) : inside (mergeSegments op 0 s1 s2) x = f (inside s1 x) (inside s2 x) := by
  have ha1 : Ascending (toggles false s1) := toggles_ascending.2 h1.ascending
  have ha2 : Ascending (toggles false s2) := toggles_ascending.2 h2.ascending
  have hv := @valueAt_combine _ _ _ _ _ f false false _ _ ha1 ha2 x
  rw [show f false false = false from ho.left false] at hv
  rw [inside,toggles_mergeSegments ho h1 h2,valueAt_coalesce (combine_ascending ha1 ha2),hv,inside,inside]

theorem mergeSegments_ok : SegmentsOk (mergeSegments op 0 s1 s2) := by
  have hf : f false false = false := ho.left false
  constructor
  · rw [← @toggles_ascending _ _ false,toggles_mergeSegments ho h1 h2]
    exact (combine_ascending (toggles_ascending.2 h1.ascending) (toggles_ascending.2 h2.ascending)).sublist
      (coalesce_sublist _ _)
  · rw [toggles_mergeSegments ho h1 h2,finalValue_coalesce]
    nth_rewrite 1 [← hf]
    rw [finalValue_combine,h1.closed,h2.closed,hf]

theorem mem_mergeSegments {x : Int} (hx : x ∈ mergeSegments op 0 s1 s2) : x ∈ s1 ∨ x ∈ s2 := by
  rw [← map_fst_toggles false (mergeSegments op 0 s1 s2),toggles_mergeSegments ho h1 h2] at hx
  obtain ⟨b,hb,rfl⟩ := mem_map.1 hx
  have hbr := (of_mem_combine ((coalesce_sublist _ _).mem hb)).1
  rwa [map_fst_toggles,map_fst_toggles] at hbr

end

end

section
variable {x maxX : Int} {segs : List Int}

theorem segmentsOk_nil : SegmentsOk [] := ⟨.nil,rfl⟩

theorem segmentsOk_cons_cons : SegmentsOk (x::maxX::segs) ↔ x < maxX ∧ (∀ s ∈ segs, maxX < s) ∧ SegmentsOk segs := by
  constructor
  · rintro ⟨ha,hc⟩
    obtain ⟨hx,ht⟩ := pairwise_cons.1 ha
    obtain ⟨hm,ht⟩ := pairwise_cons.1 ht
    exact ⟨hx maxX mem_cons_self,hm,ht,hc⟩
  · rintro ⟨hl,hm,ht,hc⟩
    refine ⟨pairwise_cons.2 ⟨?_,pairwise_cons.2 ⟨hm,ht⟩⟩,hc⟩
    exact forall_mem_cons.2 ⟨hl,fun s hs => hl.trans (hm s hs)⟩

theorem inside_nil (p : Int) : inside [] p = false := rfl

theorem inside_cons_cons (p : Int) :
    inside (x::maxX::segs) p = if p < x then false else if p < maxX then true else inside segs p := rfl

theorem SegmentsOk.eq_nil_or (h : SegmentsOk segs) : segs = [] ∨ ∃ x maxX rest, segs = x::maxX::rest := by
  match segs, h with
  | [], _ => exact .inl rfl
  | [x], h => cases h.closed
  | x::maxX::rest, _ => exact .inr ⟨x,maxX,rest,rfl⟩

@[elab_as_elim]
theorem SegmentsOk.induction {P : ∀ segs, SegmentsOk segs → Prop} (nil : P [] segmentsOk_nil)
    (cons : ∀ x maxX segs (hl : x < maxX) (ha : ∀ s ∈ segs, maxX < s) (h : SegmentsOk segs),
      P segs h → P (x::maxX::segs) (segmentsOk_cons_cons.2 ⟨hl,ha,h⟩)) :
    ∀ {segs} (h : SegmentsOk segs), P segs h
  | [], _ => nil
  | [_], h => nomatch h.closed
  | x::maxX::segs, h =>
    have ⟨hl,ha,ht⟩ := segmentsOk_cons_cons.1 h
    cons x maxX segs hl ha ht (ht.induction nil cons)

theorem inside_eq_false_of_lt (h : ∀ s ∈ segs, x < s) : inside segs x = false := by
  apply valueAt_of_lt
  intro b hb
  have hm : b.1 ∈ (toggles false segs).map Prod.fst := mem_map_of_mem hb
  rw [map_fst_toggles] at hm
  exact h b.1 hm

theorem SegmentsOk.inside_eq_false_of_le (hok : SegmentsOk segs) (h : ∀ s ∈ segs, s ≤ x) : inside segs x = false := by
  rw [inside,valueAt_of_le,hok.closed]
  intro b hb
  have hm : b.1 ∈ (toggles false segs).map Prod.fst := mem_map_of_mem hb
  rw [map_fst_toggles] at hm
  exact h b.1 hm

theorem SegmentsOk.inside_first (h : SegmentsOk (x::segs)) : inside (x::segs) x := by
  rcases h.eq_nil_or with he | ⟨x',maxX,r,he⟩
  · cases he
  · obtain ⟨rfl,rfl⟩ := cons.inj he
    rw [inside_cons_cons,if_neg (lt_irrefl x),if_pos (segmentsOk_cons_cons.1 h).1]

theorem SegmentsOk.inside_least (h : SegmentsOk segs) (hm : x ∈ segs) (hmn : ∀ s ∈ segs, x ≤ s) :
    inside segs x := by
  cases segs with
  | nil => exact absurd hm not_mem_nil
  | cons fr r =>
    rcases mem_cons.1 hm with rfl | hm
    · exact h.inside_first
    · have hl := (pairwise_cons.1 h.ascending).1 x hm
      exact absurd (hmn fr mem_cons_self) hl.not_ge

theorem SegmentsOk.inside_greatest (h : SegmentsOk segs) (hmm : maxX ∈ segs) (hmx : ∀ s ∈ segs, s ≤ maxX) :
    inside segs (maxX-1) := by
  induction h using SegmentsOk.induction with
  | nil => exact absurd hmm not_mem_nil
  | cons x m r hl ha hr ih =>
    have hm := hmx m (by simp)
    rw [inside_cons_cons,if_neg (by omega)]
    split
    · rfl
    next hg =>
      refine ih ?_ fun s hs => hmx s (by simp [hs])
      rcases mem_cons.1 hmm with rfl | hmm
      · omega
      · rcases mem_cons.1 hmm with rfl | hmm
        · omega
        · exact hmm

end
end WebKit.Graphics
