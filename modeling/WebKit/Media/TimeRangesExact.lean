import Mathlib.Data.List.Basic
import Mathlib.Order.Fin.Basic
import Mathlib.Order.Interval.Set.Defs
import WebKit.Media.PlatformTimeRanges

/-! The instants of time ranges after any sequence of operations, and when the ranges stay canonical. -/
namespace WebKit.Media

open PlatformTimeRanges List

section
variable {T : Type*} [LinearOrder T]

theorem Range.isPointInRange_iff {range : Range T} {point : T} :
    range.isPointInRange point ↔ range.start ≤ point ∧ point < range.stop := by
  simp [isPointInRange]

/-- The ranges touch: they overlap, or one ends where the other starts. -/
def Range.Touches (range other : Range T) : Prop := other.start ≤ range.stop ∧ range.start ≤ other.stop

/-- The ranges ascend and do not touch; some of them may be empty. -/
structure Separated (ranges : List (Range T)) : Prop where
  ascending : ranges.Pairwise fun range next => range.stop < next.start
  start_le : ∀ range ∈ ranges, range.start ≤ range.stop

/-- An instant is in one of the ranges. -/
def Covers (ranges : List (Range T)) (point : T) : Prop := ∃ range ∈ ranges, range.isPointInRange point

section
variable {range other : Range T}

theorem touches_iff (h : range.start ≤ range.stop) (h' : other.start ≤ other.stop) :
    range.isOverlappingRange other || range.isContiguousWithRange other ↔ range.Touches other := by
  simp only [Range.isOverlappingRange,Range.isContiguousWithRange,Range.isPointInRange,Range.Touches,Bool.or_eq_true,
    Bool.and_eq_true,decide_eq_true_eq]
  constructor
  · rintro (((⟨h1,h2⟩ | ⟨h1,h2⟩) | ⟨h1,h2⟩) | (he | he))
    · exact ⟨h2.le,h1.trans h'⟩
    · exact ⟨h'.trans h2.le,h1⟩
    · exact ⟨h1.trans h,h2.le⟩
    · exact ⟨he.le,h.trans (he ▸ h')⟩
    · exact ⟨(h'.trans he.le).trans h,he.ge⟩
  · rintro ⟨h1,h2⟩
    rcases h1.eq_or_lt with he | hl
    · exact .inr (.inl he)
    · rcases h2.eq_or_lt with he | hl'
      · exact .inr (.inr he.symm)
      · rcases le_total range.start other.start with hle | hle
        · exact .inl (.inl (.inl ⟨hle,hl⟩))
        · exact .inl (.inr ⟨hle,hl'⟩)

private theorem isPointInRange_union (h : range.Touches other) (point : T) :
    (range.unionWithOverlappingOrContiguousRange other).isPointInRange point ↔
      other.isPointInRange point ∨ range.isPointInRange point := by
  simp only [Range.isPointInRange_iff,Range.unionWithOverlappingOrContiguousRange,min_le_iff,lt_max_iff]
  constructor
  · rintro ⟨hs | hs,hst | hst⟩
    · exact .inr ⟨hs,hst⟩
    · rcases lt_or_ge point range.stop with hl | hg
      · exact .inr ⟨hs,hl⟩
      · exact .inl ⟨h.1.trans hg,hst⟩
    · rcases lt_or_ge point other.stop with hl | hg
      · exact .inl ⟨hs,hl⟩
      · exact .inr ⟨h.2.trans hg,hst⟩
    · exact .inl ⟨hs,hst⟩
  · rintro (⟨hs,hst⟩ | ⟨hs,hst⟩)
    · exact ⟨.inr hs,.inr hst⟩
    · exact ⟨.inl hs,.inl hst⟩

end

section
variable {passed rest : List (Range T)} {added range : Range T}

theorem addFrom_merge (ha : added.start ≤ added.stop) (hr : range.start ≤ range.stop) (h : added.Touches range) :
    addFrom passed added (range::rest) = addFrom passed (added.unionWithOverlappingOrContiguousRange range) rest := by
  rw [addFrom,if_pos ((touches_iff ha hr).2 h)]

theorem not_touches (h : added.stop < range.start ∨ range.stop < added.start) : ¬ added.Touches range := by
  rintro ⟨h1,h2⟩
  rcases h with h | h
  · exact h.not_ge h1
  · exact h.not_ge h2

section
variable (ha : added.start ≤ added.stop) (hr : range.start ≤ range.stop)
include ha hr

theorem addFrom_insert
    (hps : ∀ r ∈ passed, r.stop < added.start) (h : added.stop < range.start) :
    addFrom passed added (range::rest) = passed ++ added::range::rest := by
  have hb : added.isBeforeRange range := decide_eq_true h.le
  rw [addFrom,if_neg ((touches_iff ha hr).not.2 (not_touches (.inl h)))]
  cases hl : passed.getLast? with
  | none => simp only [hb,if_true]
  | some ps =>
    have hp : ps.isBeforeRange added := decide_eq_true (hps ps (mem_of_getLast? hl)).le
    simp only [hb,hp,Bool.and_self,if_true]

theorem addFrom_skip
    (h : range.stop < added.start) : addFrom passed added (range::rest) = addFrom (passed ++ [range]) added rest := by
  have hb : added.isBeforeRange range = false :=
    decide_eq_false ((hr.trans_lt h).trans_le ha).not_ge
  rw [addFrom,if_neg ((touches_iff ha hr).not.2 (not_touches (.inr h)))]
  cases passed.getLast? <;> simp only [hb,Bool.and_false,Bool.false_eq_true,if_false]

end

/-- What holds whenever the loop looks at the next range. -/
structure Adding (passed : List (Range T)) (added : Range T) (rest : List (Range T)) : Prop where
  separated : Separated (passed ++ rest)
  start_le : added.start ≤ added.stop
  passed_lt : ∀ range ∈ passed, range.stop < added.start

variable {ranges : List (Range T)} {ranges' : List (Range T)}

theorem Separated.of_sublist (h : Separated ranges) (hs : ranges'.Sublist ranges) : Separated ranges' :=
  ⟨h.ascending.sublist hs,fun range hr => h.start_le range (hs.mem hr)⟩

section
variable (h : Adding passed added (range::rest))
include h

theorem Adding.range_start_le : range.start ≤ range.stop :=
  h.separated.start_le range (by simp)

theorem Adding.rest_lt : ∀ r ∈ rest, range.stop < r.start :=
  (pairwise_cons.1 (pairwise_append.1 h.separated.ascending).2.1).1

theorem Adding.merge :
    Adding passed (added.unionWithOverlappingOrContiguousRange range) rest where
  separated := h.separated.of_sublist ((sublist_cons_self range rest).append_left passed)
  start_le := (min_le_left _ _).trans (h.start_le.trans (le_max_left _ _))
  passed_lt r hr := lt_min (h.passed_lt r hr) ((pairwise_append.1 h.separated.ascending).2.2 r hr range mem_cons_self)

theorem Adding.skip (hl : range.stop < added.start) :
    Adding (passed ++ [range]) added rest where
  separated := by simpa using h.separated
  start_le := h.start_le
  passed_lt r hr := by
    rcases mem_append.1 hr with hr | hr
    · exact h.passed_lt r hr
    · exact mem_singleton.1 hr ▸ hl

end

/-- Induction over an addition: the added range is merged with the next range, inserted before it, or passes it. -/
@[elab_as_elim]
theorem Adding.induction {P : ∀ passed added rest, Adding (T := T) passed added rest → Prop}
    (nil : ∀ {passed added} (h : Adding passed added []), P passed added [] h)
    (merge : ∀ {passed added range rest} (h : Adding passed added (range::rest)), added.Touches range →
      P passed (added.unionWithOverlappingOrContiguousRange range) rest h.merge → P passed added (range::rest) h)
    (insert : ∀ {passed added range rest} (h : Adding passed added (range::rest)), added.stop < range.start →
      P passed added (range::rest) h)
    (skip : ∀ {passed added range rest} (h : Adding passed added (range::rest)) (ha : range.stop < added.start),
      P (passed ++ [range]) added rest (h.skip ha) → P passed added (range::rest) h)
    {passed : List (Range T)} {added : Range T} {rest : List (Range T)} (h : Adding passed added rest) :
    P passed added rest h := by
  induction rest generalizing passed added with
  | nil => exact nil h
  | cons range rest ih =>
    rcases lt_or_ge added.stop range.start with hb | hle
    · exact insert h hb
    · rcases lt_or_ge range.stop added.start with ha | hle'
      · exact skip h ha (ih (h.skip ha))
      · exact merge h ⟨hle,hle'⟩ (ih h.merge)

variable {point : T}

private theorem covers_append : Covers (ranges ++ ranges') point ↔ Covers ranges point ∨ Covers ranges' point := by
  simp only [Covers,mem_append,or_and_right,exists_or]

theorem covers_cons : Covers (range::ranges) point ↔ range.isPointInRange point ∨ Covers ranges point := by
  simp [Covers]

theorem covers_nil : ¬ Covers ([] : List (Range T)) point := by
  simp [Covers]

theorem Adding.separated_insert (h : Adding passed added rest) (hrs : ∀ r ∈ rest, added.stop < r.start) :
    Separated (passed ++ added::rest) := by
  obtain ⟨hp,hrs',hc⟩ := pairwise_append.1 h.separated.ascending
  constructor
  · refine pairwise_append.2 ⟨hp,pairwise_cons.2 ⟨hrs,hrs'⟩,fun r hr r' hr' => ?_⟩
    rcases mem_cons.1 hr' with rfl | hr'
    · exact h.passed_lt r hr
    · exact hc r hr r' hr'
  · intro r hr
    rcases mem_append.1 hr with hr | hr
    · exact h.separated.start_le r (mem_append_left _ hr)
    · rcases mem_cons.1 hr with rfl | hr
      · exact h.start_le
      · exact h.separated.start_le r (mem_append_right _ hr)

theorem Adding.all_rest_lt (h : Adding passed added (range::rest)) (hb : added.stop < range.start) :
    ∀ r ∈ range::rest, added.stop < r.start :=
  forall_mem_cons.2 ⟨hb,fun r hr => (hb.trans_le h.range_start_le).trans (h.rest_lt r hr)⟩

theorem Adding.separated_addFrom (h : Adding passed added rest) : Separated (addFrom passed added rest) := by
  induction h using Adding.induction with
  | nil h => exact h.separated_insert nofun
  | merge h ht ih => rwa [addFrom_merge h.start_le h.range_start_le ht]
  | insert h hb =>
    rw [addFrom_insert h.start_le h.range_start_le h.passed_lt hb]
    exact h.separated_insert (h.all_rest_lt hb)
  | skip h ha ih => rwa [addFrom_skip h.start_le h.range_start_le ha]

theorem Adding.covers_addFrom (h : Adding passed added rest) (point : T) :
    Covers (addFrom passed added rest) point ↔ Covers (passed ++ rest) point ∨ added.isPointInRange point := by
  induction h using Adding.induction with
  | nil h => simp only [addFrom,covers_append,covers_cons,covers_nil,or_false]
  | merge h ht ih =>
    rw [addFrom_merge h.start_le h.range_start_le ht,ih,isPointInRange_union ht]
    simp only [covers_append,covers_cons,or_assoc,or_left_comm]
  | insert h hb =>
    rw [addFrom_insert h.start_le h.range_start_le h.passed_lt hb]
    simp only [covers_append,covers_cons,or_comm,or_left_comm]
  | skip h ha ih =>
    rw [addFrom_skip h.start_le h.range_start_le ha,ih,append_assoc,singleton_append]

def AllNonempty (ranges : List (Range T)) : Prop := ∀ range ∈ ranges, range.start < range.stop

private theorem allNonempty_insert (h : AllNonempty (passed ++ rest)) :
    AllNonempty (passed ++ added::rest) ↔ added.start < added.stop := by
  constructor
  · intro hal
    exact hal added (by simp)
  · intro ha r hr
    rcases mem_append.1 hr with hr | hr
    · exact h r (mem_append_left _ hr)
    · rcases mem_cons.1 hr with rfl | hr
      · exact ha
      · exact h r (mem_append_right _ hr)

section
variable (h : Adding passed added rest)
include h

theorem Adding.allNonempty_addFrom (hal : AllNonempty (passed ++ rest)) :
    AllNonempty (addFrom passed added rest) ↔ added.start < added.stop ∨ ∃ range ∈ rest, added.Touches range := by
  induction h using Adding.induction with
  | nil h =>
    rw [addFrom,allNonempty_insert hal]
    simp
  | @merge passed added range rest h ht ih =>
    have hrn : range.start < range.stop := hal range (by simp)
    have hu : min added.start range.start < max added.stop range.stop :=
      (min_le_right _ _).trans_lt (hrn.trans_le (le_max_right _ _))
    have hs : (passed ++ rest).Sublist (passed ++ range::rest) := (sublist_cons_self range rest).append_left passed
    rw [addFrom_merge h.start_le h.range_start_le ht,ih fun r hr => hal r (hs.mem hr)]
    exact iff_of_true (.inl hu) (.inr ⟨range,mem_cons_self,ht⟩)
  | insert h hb =>
    rw [addFrom_insert h.start_le h.range_start_le h.passed_lt hb,allNonempty_insert hal,or_iff_left]
    rintro ⟨r,hr,ht⟩
    exact not_touches (.inl (h.all_rest_lt hb r hr)) ht
  | skip h ha ih =>
    rw [addFrom_skip h.start_le h.range_start_le ha,ih (by simpa using hal)]
    simp only [exists_mem_cons_iff,not_touches (.inr ha),false_or]

theorem Adding.addFrom_of_lt (hr : ∀ r ∈ rest, added.stop < r.start) :
    addFrom passed added rest = passed ++ added::rest := by
  cases rest with
  | nil => rfl
  | cons range rest =>
    exact addFrom_insert h.start_le h.range_start_le h.passed_lt (hr range mem_cons_self)

theorem Adding.addFrom_empty (he : added.start = added.stop)
    (ht : ∃ range ∈ rest, added.Touches range) : addFrom passed added rest = passed ++ rest := by
  induction h using Adding.induction with
  | nil h => simp at ht
  | @merge passed added range rest h htc ih =>
    have hu : added.unionWithOverlappingOrContiguousRange range = range := by
      rw [Range.unionWithOverlappingOrContiguousRange,min_eq_right (he ▸ htc.1),max_eq_right (he ▸ htc.2)]
    have hm := h.merge
    rw [hu] at hm
    rw [addFrom_merge h.start_le h.range_start_le htc,hu,hm.addFrom_of_lt h.rest_lt]
  | insert h hb =>
    obtain ⟨r,hr,ht⟩ := ht
    exact absurd ht (not_touches (.inl (h.all_rest_lt hb r hr)))
  | skip h ha ih =>
    rw [exists_mem_cons_iff,or_iff_right (not_touches (.inr ha))] at ht
    rw [addFrom_skip h.start_le h.range_start_le ha,ih he ht,append_assoc,singleton_append]

end

end

section
variable {times : PlatformTimeRanges T} {start stop : T}

section
variable (h : Separated times.ranges) (hle : start ≤ stop)
include h hle

theorem adding_first : Adding [] ⟨start,stop⟩ times.ranges :=
  ⟨h,hle,nofun⟩

theorem separated_add : Separated (times.add start stop).ranges :=
  (adding_first h hle).separated_addFrom

theorem covers_add (point : T) :
    Covers (times.add start stop).ranges point ↔ Covers times.ranges point ∨ start ≤ point ∧ point < stop := by
  rw [add,(adding_first h hle).covers_addFrom,Range.isPointInRange_iff,nil_append]

theorem allNonempty_add (ha : AllNonempty times.ranges) :
    AllNonempty (times.add start stop).ranges ↔
      start < stop ∨ ∃ range ∈ times.ranges, range.start ≤ stop ∧ start ≤ range.stop :=
  (adding_first h hle).allNonempty_addFrom ha

end

private theorem add_empty {point : T} (h : Separated times.ranges)
    (ht : ∃ range ∈ times.ranges, range.start ≤ point ∧ point ≤ range.stop) :
    times.add point point = times := by
  rw [add,(adding_first h le_rfl).addFrom_empty rfl ht,nil_append]

theorem foldl_add (h : Separated times.ranges) {added : List (Range T)}
    (ha : ∀ range ∈ added, range.start ≤ range.stop) :
    let result := added.foldl (fun result range => result.add range.start range.stop) times
    Separated result.ranges ∧
      (∀ point, Covers result.ranges point ↔ Covers times.ranges point ∨ Covers added point) ∧
      (AllNonempty times.ranges → AllNonempty added → AllNonempty result.ranges) := by
  induction added generalizing times with
  | nil => exact ⟨h,fun point => (or_iff_left covers_nil).symm,fun hal _ => hal⟩
  | cons range added ih =>
    obtain ⟨hr,ha⟩ := forall_mem_cons.1 ha
    obtain ⟨hs,hc,hn⟩ := ih (separated_add h hr) ha
    refine ⟨hs,fun point => ?_,fun hal hal' => ?_⟩
    · rw [foldl_cons,hc,covers_add h hr,covers_cons,Range.isPointInRange_iff,or_assoc]
    · obtain ⟨hf,hal'⟩ := forall_mem_cons.1 hal'
      exact hn ((allNonempty_add h hr hal).2 (.inl hf)) hal'

variable {other : PlatformTimeRanges T}

section
variable (h : Separated times.ranges) (h' : Separated other.ranges)
include h h'

theorem separated_unionWith : Separated (times.unionWith other).ranges :=
  (foldl_add h h'.start_le).1

private theorem covers_unionWith
    (point : T) : Covers (times.unionWith other).ranges point ↔ Covers times.ranges point ∨ Covers other.ranges point :=
  (foldl_add h h'.start_le).2.1 point

private theorem allNonempty_unionWith
    (ha : AllNonempty times.ranges) (ha' : AllNonempty other.ranges) :
    AllNonempty (times.unionWith other).ranges :=
  (foldl_add h h'.start_le).2.2 ha ha'

end

theorem separated_empty : Separated (empty : PlatformTimeRanges T).ranges := ⟨.nil,nofun⟩

/-- The ranges stored so far are canonical and have the given instants. -/
structure Denotes (timeRanges : PlatformTimeRanges T) (instants : T → Prop) : Prop where
  separated : Separated timeRanges.ranges
  nonempty : AllNonempty timeRanges.ranges
  covers : ∀ point, Covers timeRanges.ranges point ↔ instants point

theorem Denotes.add {instants : T → Prop} (h : Denotes times instants) (hl : start < stop) :
    Denotes (times.add start stop) fun point => instants point ∨ start ≤ point ∧ point < stop where
  separated := separated_add h.separated hl.le
  nonempty := (allNonempty_add h.separated hl.le h.nonempty).2 (.inl hl)
  covers point := by rw [covers_add h.separated hl.le,h.covers]

theorem denotes_empty : Denotes (empty : PlatformTimeRanges T) fun _ => False :=
  ⟨separated_empty,nofun,fun _ => iff_of_false covers_nil not_false⟩

end

section
variable {range last : Range T} {rest : List (Range T)} {point : T}

theorem Separated.tail (h : Separated (range::rest)) : Separated rest :=
  h.of_sublist (sublist_cons_self range rest)

private theorem gaps_nonempty {ranges : List (Range T)} (h : Separated ranges) : AllNonempty (gaps ranges) := by
  induction ranges with
  | nil => exact nofun
  | cons range rest ih =>
    cases rest with
    | nil => exact nofun
    | cons next rest =>
      exact forall_mem_cons.2 ⟨(pairwise_cons.1 h.ascending).1 next mem_cons_self,ih h.tail⟩

theorem not_covers_of_lt (h : ∀ r ∈ rest, point < r.start) : ¬ Covers rest point := by
  rintro ⟨r,hr,hp⟩
  exact (h r hr).not_ge (Range.isPointInRange_iff.1 hp).1

theorem gaps_of_lt (h : Separated (range::rest)) (hl : (range::rest).getLast? = some last)
    (hp : point < range.stop) : ¬ Covers (gaps (range::rest)) point ∧ point < last.stop := by
  induction rest generalizing range with
  | nil =>
    obtain rfl : range = last := Option.some.inj hl
    exact ⟨covers_nil,hp⟩
  | cons next rest ih =>
    have hn : range.stop < next.start := (pairwise_cons.1 h.ascending).1 next mem_cons_self
    have hs : next.start ≤ next.stop := h.start_le next (by simp)
    obtain ⟨hg,hlt⟩ := ih h.tail (by rwa [getLast?_cons_cons] at hl) (hp.trans (hn.trans_le hs))
    refine ⟨?_,hlt⟩
    rw [gaps,covers_cons,Range.isPointInRange_iff]
    exact not_or.2 ⟨fun hgp => hp.not_ge hgp.1,hg⟩

/-- Behind the first range every instant is in a range, in a gap, or behind the last one. -/
theorem covers_gaps (h : Separated (range::rest)) (hls : (range::rest).getLast? = some last)
    (hp : range.stop ≤ point) :
    Covers (gaps (range::rest)) point ∨ last.stop ≤ point ↔ ¬ Covers (range::rest) point := by
  induction rest generalizing range with
  | nil =>
    obtain rfl : range = last := Option.some.inj hls
    refine iff_of_true (.inr hp) ?_
    rw [covers_cons,Range.isPointInRange_iff]
    exact not_or.2 ⟨fun hi => hp.not_gt hi.2,covers_nil⟩
  | cons next rest ih =>
    have hls' : (next::rest).getLast? = some last := by rwa [getLast?_cons_cons] at hls
    have ho : ¬ range.isPointInRange point := fun hi => hp.not_gt (Range.isPointInRange_iff.1 hi).2
    have hs : next.start ≤ next.stop := h.start_le next (by simp)
    have hrs := (pairwise_cons.1 h.tail.ascending).1
    rw [covers_cons,or_iff_right ho,gaps,covers_cons,Range.isPointInRange_iff,and_iff_right hp]
    rcases lt_or_ge point next.start with hlt | hge
    · refine iff_of_true (.inl (.inl hlt)) (not_covers_of_lt (forall_mem_cons.2 ⟨hlt,fun r hr => ?_⟩))
      exact (hlt.trans_le hs).trans (hrs r hr)
    · rw [or_iff_right hge.not_gt]
      rcases lt_or_ge point next.stop with hlt | hge'
      · obtain ⟨hg,hl⟩ := gaps_of_lt h.tail hls' hlt
        refine iff_of_false (not_or.2 ⟨hg,hl.not_ge⟩) (not_not.2 ?_)
        exact covers_cons.2 (.inl (Range.isPointInRange_iff.2 ⟨hge,hlt⟩))
      · exact ih h.tail hls' hge'

end

section
variable [BoundedOrder T] {times : PlatformTimeRanges T}

theorem lt_top_of_covers {ranges : List (Range T)} {point : T} (h : Covers ranges point) : point < ⊤ := by
  obtain ⟨range,_,hp⟩ := h
  exact (Range.isPointInRange_iff.1 hp).2.trans_le le_top

/-- The complement has the gaps, and what is before the first and behind the last range. -/
theorem denotes_invert_cons {range last : Range T} {rest : List (Range T)} (h : Separated (range::rest))
    (hl : (range::rest).getLast? = some last) :
    Denotes (invert ⟨range::rest⟩) fun point =>
      (point < range.start ∨ Covers (gaps (range::rest)) point) ∨ last.stop ≤ point ∧ point < ⊤ := by
  have hf : Denotes (if range.start ≠ ⊥ then empty.add ⊥ range.start else empty) fun point => point < range.start := by
    split
    next hne =>
      have ha := denotes_empty.add (bot_lt_iff_ne_bot.2 hne)
      exact ⟨ha.separated,ha.nonempty,fun point => by simp [ha.covers]⟩
    next he => exact ⟨separated_empty,nofun,fun point => by simp [not_not.1 he,empty,covers_nil]⟩
  have hn := gaps_nonempty h
  obtain ⟨hs,hc,hal⟩ := foldl_add hf.separated fun g hgp => (hn g hgp).le
  simp only [invert,head?_cons,hl]
  split
  next hne =>
    have hg : Denotes _ fun point => point < range.start ∨ Covers (gaps (range::rest)) point :=
      ⟨hs,hal hf.nonempty hn,fun point => by rw [hc,hf.covers]⟩
    exact hg.add (lt_top_iff_ne_top.2 hne)
  next he =>
    refine ⟨hs,hal hf.nonempty hn,fun point => ?_⟩
    rw [hc,hf.covers,not_not.1 he]
    exact (or_iff_left fun ht => ht.1.not_gt ht.2).symm

theorem denotes_invert [Nontrivial T] (h : Separated times.ranges) :
    Denotes times.invert fun point => point < ⊤ ∧ ¬ Covers times.ranges point := by
  obtain ⟨ranges⟩ := times
  cases ranges with
  | nil =>
    have ha := denotes_empty.add (bot_lt_top : (⊥ : T) < ⊤)
    exact ⟨ha.separated,ha.nonempty,fun point => by simp [invert,ha.covers,covers_nil]⟩
  | cons range rest =>
    obtain ⟨last,hls⟩ := Option.isSome_iff_exists.1 (getLast?_isSome.2 (cons_ne_nil range rest))
    have hi := denotes_invert_cons h hls
    refine ⟨hi.separated,hi.nonempty,fun point => (hi.covers point).trans ?_⟩
    have hs := h.start_le range mem_cons_self
    rcases lt_or_ge point range.start with hlt | hge
    · refine iff_of_true (.inl (.inl hlt)) ⟨hlt.trans_le le_top,not_covers_of_lt (forall_mem_cons.2 ⟨hlt,fun r hr => ?_⟩)⟩
      exact (hlt.trans_le hs).trans ((pairwise_cons.1 h.ascending).1 r hr)
    · rw [or_iff_right hge.not_gt]
      rcases lt_or_ge point range.stop with hlt | hge'
      · obtain ⟨hg,hl⟩ := gaps_of_lt h hls hlt
        refine iff_of_false (not_or.2 ⟨hg,fun hb => hl.not_ge hb.1⟩) fun hn => hn.2 ?_
        exact covers_cons.2 (.inl (Range.isPointInRange_iff.2 ⟨hge,hlt⟩))
      · rw [← covers_gaps h hls hge']
        constructor
        · rintro (hgp | ⟨hb,ht⟩)
          · exact ⟨lt_top_of_covers hgp,.inl hgp⟩
          · exact ⟨ht,.inr hb⟩
        · rintro ⟨ht,hgp | hb⟩
          · exact .inl hgp
          · exact .inr ⟨hb,ht⟩

/-- The ranges ascend without touching, and none of them is empty. -/
def PlatformTimeRanges.Canonical (timeRanges : PlatformTimeRanges T) : Prop :=
  timeRanges.ranges.Pairwise (fun range next => range.stop < next.start) ∧
    ∀ range ∈ timeRanges.ranges, range.start < range.stop

/-- Operations from the empty set on, with those that made the other operands. -/
inductive History (T : Type*) [LinearOrder T] where
  | empty
  | add (history : History T) (start stop : T) (h : start ≤ stop)
  | unionWith (history other : History T)
  | intersectWith (history other : History T)
  | invert (history : History T)

namespace History

/-- The history and the histories that it continues or uses. -/
def stages : History T → List (History T)
  | .empty => [.empty]
  | .add history start stop h => .add history start stop h :: history.stages
  | .unionWith history other => .unionWith history other :: (history.stages ++ other.stages)
  | .intersectWith history other => .intersectWith history other :: (history.stages ++ other.stages)
  | .invert history => .invert history :: history.stages

def run : History T → PlatformTimeRanges T
  | .empty => .empty
  | .add history start stop _ => history.run.add start stop
  | .unionWith history other => history.run.unionWith other.run
  | .intersectWith history other => history.run.intersectWith other.run
  | .invert history => history.run.invert

/-- The instants that the operations describe, all before positive infinity. -/
def instants : History T → Set T
  | .empty => ∅
  | .add history start stop _ => history.instants ∪ Set.Ico start stop
  | .unionWith history other => history.instants ∪ other.instants
  | .intersectWith history other => history.instants ∩ other.instants
  | .invert history => Set.Iio ⊤ \ history.instants

variable [Nontrivial T]

/-- The ranges never touch and have just the instants described, also when some are empty. -/
theorem run_exact (hs : History T) :
    Separated hs.run.ranges ∧ ∀ point, Covers hs.run.ranges point ↔ point ∈ hs.instants := by
  induction hs with
  | empty => exact ⟨separated_empty,fun point => iff_of_false covers_nil (Set.notMem_empty point)⟩
  | add hs start stop h ih =>
    refine ⟨separated_add ih.1 h,fun point => ?_⟩
    rw [run,covers_add ih.1 h,ih.2,instants,Set.mem_union,Set.mem_Ico]
  | unionWith hs other ih ih' =>
    refine ⟨separated_unionWith ih.1 ih'.1,fun point => ?_⟩
    rw [run,covers_unionWith ih.1 ih'.1,ih.2,ih'.2,instants,Set.mem_union]
  | intersectWith hs other ih ih' =>
    have hi := denotes_invert ih.1
    have hi' := denotes_invert ih'.1
    have hb := denotes_invert (separated_unionWith hi.separated hi'.separated)
    refine ⟨hb.separated,fun point => ?_⟩
    have ht : point ∈ hs.instants → point < ⊤ := fun hp => lt_top_of_covers ((ih.2 point).2 hp)
    rw [run,PlatformTimeRanges.intersectWith,hb.covers,covers_unionWith hi.separated hi'.separated,
      hi.covers,hi'.covers,ih.2,ih'.2,instants,Set.mem_inter_iff]
    tauto
  | invert hs ih =>
    have hi := denotes_invert ih.1
    refine ⟨hi.separated,fun point => ?_⟩
    rw [run,hi.covers,ih.2,instants,Set.mem_sdiff,Set.mem_Iio]

omit [BoundedOrder T] [Nontrivial T] in
theorem mem_stages_self (hs : History T) : hs ∈ hs.stages := by
  cases hs <;> exact mem_cons_self

/-- An empty range is only added where it touches a range. -/
def EmptyAddsTouch (history : History T) : Prop :=
  ∀ stage ∈ history.stages, ∀ earlier point h, stage = .add earlier point point h →
    ∃ range ∈ earlier.run.ranges, range.start ≤ point ∧ point ≤ range.stop

private theorem run_nonempty {hst : History T} (h : hst.EmptyAddsTouch) : AllNonempty hst.run.ranges := by
  induction hst with
  | empty => exact nofun
  | add hst start stop hle ih =>
    have ha := ih fun s hs => h s (mem_cons_of_mem _ hs)
    refine (allNonempty_add hst.run_exact.1 hle ha).2 (hle.eq_or_lt.symm.imp_right ?_)
    rintro rfl
    exact h _ (mem_stages_self _) hst start hle rfl
  | unionWith hst other ih ih' =>
    have ha := ih fun s hs => h s (mem_cons_of_mem _ (mem_append_left _ hs))
    have ha' := ih' fun s hs => h s (mem_cons_of_mem _ (mem_append_right _ hs))
    exact allNonempty_unionWith hst.run_exact.1 other.run_exact.1 ha ha'
  | intersectWith hst other ih ih' =>
    have hi := denotes_invert hst.run_exact.1
    have hi' := denotes_invert other.run_exact.1
    exact (denotes_invert (separated_unionWith hi.separated hi'.separated)).nonempty
  | invert hst ih => exact (denotes_invert hst.run_exact.1).nonempty

omit [BoundedOrder T] [Nontrivial T] in
private theorem stages_subset {hst s : History T} (hs : s ∈ hst.stages) :
    ∀ e ∈ s.stages, e ∈ hst.stages := by
  induction hst with
  | empty => exact mem_singleton.1 hs ▸ fun _ h => h
  | add hst start stop hle ih | invert hst ih =>
    rcases mem_cons.1 hs with rfl | hs
    · exact fun _ h => h
    · exact fun e h => mem_cons_of_mem _ (ih hs e h)
  | unionWith hst other ih ih' | intersectWith hst other ih ih' =>
    rcases mem_cons.1 hs with rfl | hs
    · exact fun _ h => h
    · rcases mem_append.1 hs with hs | hs
      · exact fun e h => mem_cons_of_mem _ (mem_append_left _ (ih hs e h))
      · exact fun e h => mem_cons_of_mem _ (mem_append_right _ (ih' hs e h))

/-- Along a sequence of operations the ranges are canonical, exact and not changed by an empty range if and
only if every empty range is added where it touches a range. -/
theorem canonical_iff (history : History T) :
    (∀ stage ∈ history.stages, stage.run.Canonical ∧ (∀ point, Covers stage.run.ranges point ↔ point ∈ stage.instants) ∧
      ∀ earlier point h, stage = .add earlier point point h → stage.run = earlier.run) ↔ history.EmptyAddsTouch := by
  constructor
  · rintro hc _ hs earlier point h rfl
    have he := stages_subset hs earlier (mem_cons_of_mem _ (mem_stages_self earlier))
    have ha := (hc _ hs).1.2
    exact ((allNonempty_add earlier.run_exact.1 h (hc _ he).1.2).1 ha).resolve_left (lt_irrefl point)
  · intro ht stage hs
    have hn := run_nonempty fun stage' hs' => ht stage' (stages_subset hs stage' hs')
    refine ⟨⟨stage.run_exact.1.ascending,hn⟩,stage.run_exact.2,?_⟩
    rintro earlier point h rfl
    exact add_empty earlier.run_exact.1 (ht _ hs earlier point h rfl)

/-- An empty range added to the empty set is stored. -/
theorem add_stores_empty_range : (add (empty : History (Fin 3)) 1 1 le_rfl).run = ⟨[⟨1,1⟩]⟩ ∧
      ¬ (add (empty : History (Fin 3)) 1 1 le_rfl).run.Canonical :=
  ⟨by decide,fun h => lt_irrefl (1 : Fin 3) (h.2 ⟨1,1⟩ (by decide))⟩

theorem canonical_iff_overlapping : (add (add (empty : History (Fin 3)) 0 1 (by decide)) 1 1 le_rfl).run.Canonical := by
  refine ((canonical_iff (add (add empty 0 1 (by decide)) 1 1 le_rfl)).2 ?_ _ (mem_stages_self _)).1
  rintro stage hs earlier point h rfl
  rcases mem_cons.1 hs with heq | hs
  · injection heq with he hp
    subst he hp
    exact ⟨⟨0,1⟩,by decide,by decide,by decide⟩
  · rcases mem_cons.1 hs with heq | hs
    · injection heq with _ hp hp'
      exact absurd (hp.symm.trans hp') (by decide)
    · exact nomatch mem_singleton.1 hs

end History
end
end
end WebKit.Media
