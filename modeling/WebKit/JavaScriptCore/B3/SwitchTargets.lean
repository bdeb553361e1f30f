import Mathlib.Data.List.Find
import Mathlib.Tactic.Positivity
import WebKit.JavaScriptCore.B3.LowerSwitch
import WebKit.JavaScriptCore.B3.RangeSound

/-! The code for a Switch goes where the Switch goes, as long as the spread of its cases can be computed. -/
namespace WebKit.JavaScriptCore.B3
open List Int Nat

def Increasing {α : Type} (cases : List (SwitchCase α)) : Prop := cases.Pairwise fun c d => c.caseValue < d.caseValue

section Targets

variable {α : Type} {cases : List (SwitchCase α)} {fall : α} {x : Int}

theorem switchTarget_of_mem (hn : (cases.map SwitchCase.caseValue).Nodup) {c : SwitchCase α} (hc : c ∈ cases)
    (hx : c.caseValue = x) : switchTarget cases fall x = c.target := by
  cases hf : cases.find? fun c => c.caseValue = x with
  | none => exact absurd hx (by simpa using find?_eq_none.1 hf c hc)
  | some d =>
    have hd : d.caseValue = x := by simpa using find?_some hf
    have he : d = c := inj_on_of_nodup_map hn (mem_of_find?_eq_some hf) hc (hd.trans hx.symm)
    rw [switchTarget,hf,he]
    rfl

theorem switchTarget_of_not_mem (h : ∀ c ∈ cases, c.caseValue ≠ x) : switchTarget cases fall x = fall := by
  have hf : cases.find? (fun c => c.caseValue = x) = none := find?_eq_none.2 (by simpa using h)
  rw [switchTarget,hf]
  rfl

private theorem switchTarget_cons (c : SwitchCase α) (cases : List (SwitchCase α)) :
    switchTarget (c::cases) fall x = if c.caseValue = x then c.target else switchTarget cases fall x := by
  rw [switchTarget,find?_cons]
  by_cases he : c.caseValue = x
  · rw [if_pos he,decide_eq_true he]
    rfl
  · rw [if_neg he,decide_eq_false he]
    rfl

theorem switchTarget_congr {cases' : List (SwitchCase α)} (hn : (cases.map SwitchCase.caseValue).Nodup)
    (hn' : (cases'.map SwitchCase.caseValue).Nodup) (h : ∀ c, c.caseValue = x → (c ∈ cases ↔ c ∈ cases')) :
    switchTarget cases fall x = switchTarget cases' fall x := by
  by_cases hm : ∃ c ∈ cases, c.caseValue = x
  · obtain ⟨c,hc,hx⟩ := hm
    rw [switchTarget_of_mem hn hc hx,switchTarget_of_mem hn' ((h c hx).1 hc) hx]
  · rw [switchTarget_of_not_mem fun c hc hx => hm ⟨c,hc,hx⟩,
      switchTarget_of_not_mem fun c hc hx => hm ⟨c,(h c hx).2 hc,hx⟩]

end Targets

section Order

variable {α : Type} {cases : List (SwitchCase α)} {start stop : Nat}

theorem Increasing.nodup (h : Increasing cases) : (cases.map SwitchCase.caseValue).Nodup :=
  pairwise_map.2 (h.imp fun hl => hl.ne)

variable {i : Nat}

theorem caseValueAt_eq (hi : i < cases.length) : caseValueAt cases i = cases[i].caseValue := by
  rw [caseValueAt,getElem?_map,getElem?_eq_getElem hi]
  rfl

theorem Increasing.caseValueAt_lt (h : Increasing cases) {j : Nat} (hi : i < j) (hj : j < cases.length) :
    caseValueAt cases i < caseValueAt cases j := by
  rw [caseValueAt_eq (hi.trans hj),caseValueAt_eq hj]
  exact pairwise_iff_getElem.1 h i j _ hj hi

theorem Increasing.caseValueAt_le (h : Increasing cases) {j : Nat} (hi : i ≤ j) (hj : j < cases.length) :
    caseValueAt cases i ≤ caseValueAt cases j := by
  rcases hi.lt_or_eq with hl | rfl
  · exact (h.caseValueAt_lt hl hj).le
  · exact le_rfl

theorem mem_casesBetween {c : SwitchCase α} :
    c ∈ casesBetween cases start stop ↔ ∃ i, start ≤ i ∧ i < stop ∧ cases[i]? = some c := by
  rw [casesBetween,mem_iff_getElem?]
  constructor
  · rintro ⟨i,hi⟩
    have hlt : i < stop - start := by
      by_contra hg
      rw [getElem?_take,if_neg hg] at hi
      cases hi
    rw [getElem?_take_of_lt hlt,getElem?_drop] at hi
    exact ⟨start + i,by omega,by omega,hi⟩
  · rintro ⟨i,hl,hh,hi⟩
    refine ⟨i - start,?_⟩
    rw [getElem?_take_of_lt (by omega),getElem?_drop,show start + (i-start) = i by omega,hi]

theorem Increasing.between (h : Increasing cases) (start stop : Nat) : Increasing (casesBetween cases start stop) :=
  h.sublist ((take_sublist _ _).trans (drop_sublist _ _))

theorem caseValueAt_of_getElem? {c : SwitchCase α} (h : cases[i]? = some c) : caseValueAt cases i = c.caseValue := by
  rw [caseValueAt,getElem?_map,h]
  rfl

/-- The value is not below the cases from an index on and not above the cases before another: only the cases between them
matter. -/
theorem switchTarget_between (h : Increasing cases) {fall : α} {x : Int}
    (hlw : start ≠ 0 → start < cases.length ∧ caseValueAt cases start ≤ x)
    (hh : stop < cases.length → x < caseValueAt cases stop) :
    switchTarget cases fall x = switchTarget (casesBetween cases start stop) fall x := by
  refine switchTarget_congr h.nodup (h.between start stop).nodup fun c hx => ?_
  rw [mem_casesBetween]
  constructor
  · intro hc
    obtain ⟨i,hi⟩ := mem_iff_getElem?.1 hc
    have hl : i < cases.length := (List.getElem?_eq_some_iff.1 hi).1
    have hv := caseValueAt_of_getElem? hi
    refine ⟨i,?_,?_,hi⟩
    · by_contra hlt
      obtain ⟨hs,hle⟩ := hlw (by omega)
      have := h.caseValueAt_lt (by omega : i < start) hs
      omega
    · by_contra hg
      have := h.caseValueAt_le (by omega : stop ≤ i) hl
      omega
  · rintro ⟨i,-,-,hi⟩
    exact mem_iff_getElem?.2 ⟨i,hi⟩

theorem Increasing.spread_iff (h : Increasing cases) {bound : Int} (hb : 1 < bound) :
    caseValueAt cases (cases.length-1) - caseValueAt cases 0 + 1 < bound ↔
      ∀ c ∈ cases, ∀ d ∈ cases, d.caseValue - c.caseValue + 1 < bound := by
  constructor
  · intro hs c hc d hd
    obtain ⟨i,hi⟩ := mem_iff_getElem?.1 hc
    obtain ⟨j,hj⟩ := mem_iff_getElem?.1 hd
    have hi' := (List.getElem?_eq_some_iff.1 hi).1
    have hj' := (List.getElem?_eq_some_iff.1 hj).1
    have hf := h.caseValueAt_le (zero_le i) hi'
    have hl := h.caseValueAt_le (by omega : j ≤ cases.length - 1) (by omega)
    rw [caseValueAt_of_getElem? hi] at hf
    rw [caseValueAt_of_getElem? hj] at hl
    omega
  · intro hs
    cases cases with
    | nil => exact hb
    | cons c r =>
      have hln : 0 < (c::r).length := succ_pos _
      rw [caseValueAt_eq (sub_lt hln one_pos),caseValueAt_eq hln]
      exact hs _ (getElem_mem _) _ (getElem_mem _)

end Order

section Words

variable {type : IntType} {x : BitVec type.width} {a b : Int}

theorem two_mul_bound (type : IntType) : 2*type.bound = 2^type.width := by
  cases type <;> rfl

private theorem eq_ofInt_iff (h : type.Fits a) : x = .ofInt type.width a ↔ a = x.toInt := by
  rw [← BitVec.toInt_inj,toInt_ofInt_of_fits h,eq_comm]

private theorem slt_ofInt_iff (h : type.Fits a) : x.slt (.ofInt type.width a) ↔ x.toInt < a := by
  rw [BitVec.slt_iff_toInt_lt,toInt_ofInt_of_fits h]

theorem toNat_ofInt_eq_emod (w : Nat) (a : Int) : ((BitVec.ofInt w a).toNat : Int) = a%2^w := by
  have hp : ((2^w : Nat) : Int) ≠ 0 := by positivity
  rw [BitVec.toNat_ofInt,toNat_of_nonneg (emod_nonneg _ hp)]
  rfl

theorem toNat_sub_ofInt (x : BitVec type.width) (a : Int) :
    ((x-.ofInt type.width a).toNat : Int) = (x.toInt-a)%2^type.width := by
  have hsb : x - .ofInt type.width a = .ofInt type.width (x.toInt-a) := by
    have hs := BitVec.ofInt_add (n := type.width) (x.toInt-a) a
    rw [sub_add_cancel,BitVec.ofInt_toInt] at hs
    rw [sub_eq_iff_eq_add,← hs]
  rw [hsb,toNat_ofInt_eq_emod]

/-- The bound check of a table passes the values between its ends. -/
theorem ult_sub_iff (ha : type.Fits a) (hb : type.Fits b) (hab : a ≤ b) :
    (BitVec.ofInt type.width (b-a)).ult (x-.ofInt type.width a) ↔ ¬ (a ≤ x.toInt ∧ x.toInt ≤ b) := by
  have hi := toNat_sub_ofInt x a
  have hx := fits_toInt x
  have hw := two_mul_bound type
  unfold IntType.Fits at ha hb hx
  have hbn : ((BitVec.ofInt type.width (b-a)).toNat : Int) = b - a := by
    rw [toNat_ofInt_eq_emod]
    exact emod_eq_of_lt (by omega) (by omega)
  rw [BitVec.ult_iff_toNat_lt,← ofNat_lt,hbn,hi]
  rcases le_or_gt a x.toInt with hl | hlt
  · rw [emod_eq_of_lt (by omega) (by omega)]
    omega
  · have hwr : (x.toInt-a)%2^type.width = x.toInt - a + 2^type.width := by
      rw [← add_emod_right,emod_eq_of_lt (by omega) (by omega)]
    omega

/-- A number of 64 bits that is too large is taken for a nonpositive one. -/
theorem int64_nonpos (hl : 2^63 ≤ a) (hh : a ≤ 2^64) : int64 a ≤ 0 := by
  rw [int64,bmod]
  split_ifs with h <;> push_cast at * <;> omega

private theorem tdiv_nonpos (h : a ≤ 0) (n : Nat) : a.tdiv n ≤ 0 := by
  have hn := Int.tdiv_nonneg (neg_nonneg.2 h) (natCast_nonneg n)
  rw [Int.neg_tdiv] at hn
  exact neg_nonneg.1 hn

end Words

section Tables

private theorem orderedInsert_of_forall_lt {bt : List Nat} {i : Nat} (h : ∀ j ∈ bt, j < i) :
    bt.orderedInsert (· ≤ ·) i = bt ++ [i] := by
  induction bt with
  | nil => rfl
  | cons j bt ih =>
    obtain ⟨hj,h⟩ := forall_mem_cons.1 h
    rw [orderedInsert_cons,if_neg (by omega),ih h,cons_append]

/-- Bits set in increasing order are found in that order. -/
theorem foldl_setBit {α : Type} {f : α → Nat} {l : List α} (h : (l.map f).Pairwise (· < ·)) {bt : List Nat}
    (hb : ∀ j ∈ bt, ∀ i ∈ l.map f, j < i) : l.foldl (fun bt a => setBit bt (f a)) bt = bt ++ l.map f := by
  induction l generalizing bt with
  | nil => rw [foldl_nil,map_nil,append_nil]
  | cons a l ih =>
    rw [map_cons,pairwise_cons] at h
    have hn : ∀ j ∈ bt, j < f a := fun j hj => hb j hj (f a) mem_cons_self
    have hs : setBit bt (f a) = bt ++ [f a] := by
      rw [setBit,if_neg fun hm => lt_irrefl _ (hn _ hm),orderedInsert_of_forall_lt hn]
    rw [foldl_cons,hs,ih h.2,map_cons,append_assoc,singleton_append]
    intro j hj i hi
    rcases mem_append.1 hj with hj | hj
    · exact hb j hj i (mem_cons_of_mem _ hi)
    · rw [mem_singleton.1 hj]
      exact h.1 i hi

private theorem lookup_zip_map {α β : Type} (l : List α) (f : α → Nat) (g : α → β) (k : Nat) :
    ((l.map f).zip (l.map g)).lookup k = (l.find? fun a => f a = k).map g := by
  induction l with
  | nil => rfl
  | cons a l ih =>
    rw [map_cons,map_cons,zip_cons_cons,lookup_cons,find?_cons]
    by_cases h : f a = k
    · simp [h]
    · rw [show (k == f a) = false from beq_false_of_ne (Ne.symm h),show decide (f a = k) = false from decide_eq_false h,ih]

variable {α : Type} {cases : List (SwitchCase α)} {fall : α} {first : Int} {tableSize : Nat}

/-- A table of a moderate size holds the targets, and the fall-through for other values. -/
theorem jumpTable_eq (h : Increasing cases) (hs : tableSize < 2^32)
    (hcs : ∀ c ∈ cases, first ≤ c.caseValue ∧ c.caseValue < first + tableSize) {x : Int}
    (hl : first ≤ x) (hh : x < first + tableSize) :
    jumpTable fall cases first tableSize (x-first).toNat = some (switchTarget cases fall x) := by
  have hi : ∀ c ∈ cases, sizeOf64 (c.caseValue-first) = (c.caseValue-first).toNat := by
    intro c hc
    obtain ⟨hl,hh⟩ := hcs c hc
    rw [sizeOf64,emod_eq_of_lt (by omega) (by omega)]
  have hin : (cases.map fun c => sizeOf64 (c.caseValue-first)).Pairwise (· < ·) := by
    refine pairwise_map.2 (List.Pairwise.imp_of_mem (fun {c d} hc hd hlt => ?_) h)
    have := hcs c hc
    rw [hi c hc,hi d hd]
    omega
  have hf : cases.find? (fun c => sizeOf64 (c.caseValue-first) = (x-first).toNat) =
      cases.find? fun c => c.caseValue = x := by
    refine find?_congr fun c hc => ?_
    have := hcs c hc
    rw [hi c hc,decide_eq_decide]
    omega
  have hr : (x-first).toNat < 8*tableSize%2^64/8 := by omega
  have hcn : (x-first).toNat < tableSize%2^32 := by omega
  rw [jumpTable,foldl_setBit hin (forall_mem_nil _),nil_append,if_pos hr,
    lookup_zip_map,hf,switchTarget]
  cases hca : cases.find? fun c => c.caseValue = x with
  | some c => rfl
  | none =>
    have hu : (List.range tableSize).any
        (· ∉ cases.map fun c => sizeOf64 (c.caseValue-first)) := by
      refine any_eq_true.2 ⟨(x-first).toNat,mem_range.2 (by omega),decide_eq_true fun hm => ?_⟩
      obtain ⟨c,hc,he⟩ := mem_map.1 hm
      have hn := find?_eq_none.1 (hf.trans hca) c hc
      exact hn (decide_eq_true he)
    exact if_pos ⟨hu,hcn⟩

end Tables

section Code

variable {type : IntType} {α : Type} {cases : List (SwitchCase α)} {fall : α} {x : BitVec type.width}

private theorem run_checks (hft : ∀ c ∈ cases, type.Fits c.caseValue) (l : α) :
    (cases.foldr (fun c n => SwitchCode.branchEqual c.caseValue c.target n) (.jump l)).run x =
      some (switchTarget cases l x.toInt) := by
  induction cases with
  | nil => rfl
  | cons c cases ih =>
    obtain ⟨hc,hft⟩ := forall_mem_cons.1 hft
    rw [foldr_cons,SwitchCode.run,ih hft,switchTarget_cons]
    by_cases he : c.caseValue = x.toInt
    · rw [if_pos ((eq_ofInt_iff hc).2 he),if_pos he]
    · rw [if_neg fun h => he ((eq_ofInt_iff hc).1 h),if_neg he]

/-- What is known of the value where some cases are left to be checked. -/
structure Region (cases : List (SwitchCase α)) (start : Nat) (hardStart : Bool) (stop : Nat) (x : Int) : Prop where
  stop_le : stop ≤ cases.length
  start_le : start ≤ stop
  hard_of_pos : start ≠ 0 → hardStart = true
  low : hardStart = true → start < stop ∧ caseValueAt cases start ≤ x
  high : stop < cases.length → x < caseValueAt cases stop

variable {start stop : Nat} {hardStart : Bool}

theorem Region.switchTarget_eq {y : Int} (h : Increasing cases) (hr : Region cases start hardStart stop y) :
    switchTarget cases fall y = switchTarget (casesBetween cases start stop) fall y := by
  refine switchTarget_between h (fun hp => ?_) hr.high
  obtain ⟨hlt,hl⟩ := hr.low (hr.hard_of_pos hp)
  exact ⟨hlt.trans_le hr.stop_le,hl⟩

private theorem mem_of_mem_between {c : SwitchCase α} (h : c ∈ casesBetween cases start stop) : c ∈ cases :=
  mem_of_mem_drop (mem_of_mem_take h)

private theorem caseValueAt_add (hc : ∀ i < stop - start - 1, caseValueAt cases (start+i) + 1 = caseValueAt cases (start+i+1))
    {i : Nat} (hi : i < stop - start) : caseValueAt cases (start+i) = caseValueAt cases start + i := by
  induction i with
  | zero => simp
  | succ i ih =>
    rw [← add_assoc,← hc i (by omega),ih (by omega)]
    omega

section
variable (h : Increasing cases) (hft : ∀ c ∈ cases, type.Fits c.caseValue)
include h hft

private theorem run_leaf
    (hr : Region cases start hardStart stop x.toInt) :
    (leaf cases fall start hardStart stop).run x = some (switchTarget cases fall x.toInt) := by
  have hft' (stop : Nat) : ∀ c ∈ casesBetween cases start stop, type.Fits c.caseValue :=
    fun c hc => hft c (mem_of_mem_between hc)
  rw [leaf]
  cases hcn : allConsecutive cases start hardStart stop with
  | false =>
    simp only [Bool.false_eq_true,if_false]
    rw [run_checks (hft' _),Nat.add_sub_cancel' hr.start_le,← hr.switchTarget_eq h]
  | true =>
    -- The values that are left are those of the cases, so that the last case needs no check.
    simp only [allConsecutive,Bool.and_eq_true,Bool.or_eq_true,decide_eq_true_iff,all_eq_true,mem_range] at hcn
    obtain ⟨⟨⟨hsf,hl⟩,ht⟩,hs⟩ := hcn
    have hh : hardStart := hsf.elim id fun h => hr.hard_of_pos h.1
    obtain ⟨hlt,hlw⟩ := hr.low hh
    have hhg := hr.high hl
    have hen : caseValueAt cases (stop-1) = caseValueAt cases start + (stop - 1 - start : Nat) := by
      rw [← caseValueAt_add hs (by omega),Nat.add_sub_cancel' (by omega)]
    obtain ⟨k,hk⟩ : ∃ k : Nat, x.toInt = caseValueAt cases start + k := ⟨(x.toInt-caseValueAt cases start).toNat,by omega⟩
    have hv : caseValueAt cases (start+k) = x.toInt := by rw [caseValueAt_add hs (by omega),hk]
    obtain ⟨d,hd⟩ : ∃ d, cases[start + k]? = some d := ⟨_,getElem?_eq_getElem (by omega)⟩
    obtain ⟨c,hc⟩ : ∃ c, cases[stop - 1]? = some c := ⟨_,getElem?_eq_getElem (by omega)⟩
    have hdx : d.caseValue = x.toInt := (caseValueAt_of_getElem? hd).symm.trans hv
    have htg : switchTarget cases fall x.toInt = d.target :=
      switchTarget_of_mem h.nodup (mem_of_getElem? hd) hdx
    simp only [if_true]
    rw [run_checks (hft' _),htg,hc,show start + (stop-start-1) = stop - 1 by omega]
    congr 1
    by_cases hk : start + k = stop - 1
    · obtain rfl : d = c := Option.some.inj (hd.symm.trans (hk ▸ hc))
      refine switchTarget_of_not_mem fun e he hex => ?_
      obtain ⟨i,-,hi,hi'⟩ := mem_casesBetween.1 he
      have := h.caseValueAt_lt hi (by omega)
      rw [caseValueAt_of_getElem? hi',hex,← hk,hv] at this
      omega
    · exact switchTarget_of_mem (h.between _ _).nodup (mem_casesBetween.2 ⟨start + k,by omega,by omega,hd⟩) hdx

private theorem run_table
    (hr : Region cases start hardStart stop x.toInt) (hsz : minCasesForTable ≤ stop - start)
    {tableSize : Nat} (ht : caseValueAt cases (stop-1) - caseValueAt cases start + 1 = tableSize)
    (hm : tableSize < 2^32) :
    (SwitchCode.branchAbove (caseValueAt cases start) (caseValueAt cases (stop-1)-caseValueAt cases start) fall
      (jumpTable fall (casesBetween cases start stop) (caseValueAt cases start) tableSize)).run x =
        some (switchTarget cases fall x.toInt) := by
  have hs := hr.stop_le
  rw [minCasesForTable] at hsz
  have hft' {i : Nat} (hi : i < cases.length) : type.Fits (caseValueAt cases i) := by
    rw [caseValueAt_eq hi]
    exact hft _ (getElem_mem hi)
  have he : caseValueAt cases start ≤ caseValueAt cases (stop-1) := h.caseValueAt_le (by omega) (by omega)
  have hb : ∀ c ∈ casesBetween cases start stop,
      caseValueAt cases start ≤ c.caseValue ∧ c.caseValue < caseValueAt cases start + tableSize := by
    intro c hc
    obtain ⟨i,hl,hh,hi⟩ := mem_casesBetween.1 hc
    rw [← caseValueAt_of_getElem? hi]
    have := h.caseValueAt_le hl (by omega)
    have := h.caseValueAt_le (by omega : i ≤ stop - 1) (by omega)
    omega
  rw [SwitchCode.run,hr.switchTarget_eq h]
  split_ifs with hu
  · rw [ult_sub_iff (hft' (by omega)) (hft' (by omega)) he] at hu
    rw [switchTarget_of_not_mem]
    intro c hc hx
    have := hb c hc
    omega
  · rw [ult_sub_iff (hft' (by omega)) (hft' (by omega)) he,not_not] at hu
    have hin : (x-.ofInt type.width (caseValueAt cases start)).toNat = (x.toInt-caseValueAt cases start).toNat := by
      have hx := fits_toInt x
      have hf : type.Fits (caseValueAt cases start) := hft' (by omega)
      have hw := two_mul_bound type
      have hn := toNat_sub_ofInt x (caseValueAt cases start)
      unfold IntType.Fits at hx hf
      rw [emod_eq_of_lt (by omega) (by omega)] at hn
      omega
    rw [hin]
    exact jumpTable_eq (h.between _ _) hm hb hu.1 (by omega)

/-- Where the cases' spread can be computed, the code goes where the Switch goes. -/
theorem run_recursivelyBuildSwitch
    (hcn : cases.length ≤ (2^32-1)/24)
    (hs : cases.length < minCasesForTable ∨ caseValueAt cases (cases.length-1) - caseValueAt cases 0 + 1 < 2^63)
    (hr : Region cases start hardStart stop x.toInt) :
    (recursivelyBuildSwitch cases fall start hardStart stop).run x = some (switchTarget cases fall x.toInt) := by
  fun_induction recursivelyBuildSwitch cases fall start hardStart stop with
  | case1 start hardStart stop first lastValue ht =>
    obtain ⟨hsz,hdn⟩ := ht
    have hst := hr.stop_le
    have hsz' : 7 ≤ stop - start := hsz
    have hf : caseValueAt cases 0 ≤ first := h.caseValueAt_le (zero_le _) (by omega)
    have hls : lastValue ≤ caseValueAt cases (cases.length-1) := h.caseValueAt_le (by omega) (by omega)
    have he : first ≤ lastValue := h.caseValueAt_le (by omega) (by omega)
    have hc : int64 (lastValue-first+1) = lastValue - first + 1 :=
      bmod_eq_of_le (by omega) (by omega)
    rw [hc,tdiv_eq_ediv_of_nonneg (by omega),densityLimit,Int.ediv_lt_iff_lt_mul (by omega)] at hdn
    have ht : sizeOf64 (lastValue-first+1) = (lastValue-first+1).toNat := by
      rw [sizeOf64,emod_eq_of_lt (by omega) (by omega)]
    rw [ht]
    exact run_table h hft hr hsz (toNat_of_nonneg (by omega)).symm (by omega)
  | case2 start hardStart stop first lastValue ht hl => exact run_leaf h hft hr
  | case3 start hardStart stop first lastValue ht hl medianIndex ihl ih =>
    rw [leafThreshold] at hl
    have hlw : start < medianIndex := by omega
    have hh : medianIndex < stop := by omega
    have hst := hr.stop_le
    have hm : type.Fits (caseValueAt cases medianIndex) := by
      rw [caseValueAt_eq (by omega)]
      exact hft _ (getElem_mem _)
    rw [SwitchCode.run]
    split_ifs with hsl
    · rw [slt_ofInt_iff hm] at hsl
      exact ihl ⟨by omega,hlw.le,hr.hard_of_pos,fun hhr => ⟨hlw,(hr.low hhr).2⟩,fun _ => hsl⟩
    · rw [slt_ofInt_iff hm,not_lt] at hsl
      exact ih ⟨hst,hh.le,fun _ => rfl,fun _ => ⟨hh,hsl⟩,hr.high⟩

end

/-- Else the table is too small for the last case. -/
theorem run_overflow (hft : ∀ c ∈ cases, type.Fits c.caseValue) (hc : minCasesForTable ≤ cases.length)
    (hs : 2^63 ≤ caseValueAt cases (cases.length-1) - caseValueAt cases 0 + 1) :
    (recursivelyBuildSwitch cases fall 0 false cases.length).run
      (BitVec.ofInt type.width (caseValueAt cases (cases.length-1))) = none := by
  have hc' : 7 ≤ cases.length := hc
  have hft' {i : Nat} (hi : i < cases.length) : type.Fits (caseValueAt cases i) := by
    rw [caseValueAt_eq hi]
    exact hft _ (getElem_mem hi)
  have hf : type.Fits (caseValueAt cases 0) := hft' (by omega)
  have hl : type.Fits (caseValueAt cases (cases.length-1)) := hft' (by omega)
  have hb : type.bound ≤ 2^63 := by cases type <;> decide
  have hw := two_mul_bound type
  have hv := toInt_ofInt_of_fits hl
  have hid := toNat_sub_ofInt (.ofInt type.width (caseValueAt cases (cases.length-1))) (caseValueAt cases 0)
  have hin := ult_sub_iff (x := .ofInt type.width (caseValueAt cases (cases.length-1))) hf hl (by omega)
  unfold IntType.Fits at hf hl
  rw [emod_eq_of_lt (by omega) (by omega)] at hid
  -- The spread is taken for a number that is not positive, hence for a small one.
  have hdn : (int64 (caseValueAt cases (cases.length-1)-caseValueAt cases 0+1)).tdiv
      (cases.length - 0 : Nat) < densityLimit :=
    (tdiv_nonpos (int64_nonpos hs (by omega)) _).trans_lt (by decide)
  rw [recursivelyBuildSwitch,if_pos ⟨hc,hdn⟩,SwitchCode.run,if_neg (hin.not.2 (by omega)),jumpTable,
    if_neg (by omega)]

end Code

private theorem exists_sorted {type : IntType} {α : Type} (v : SwitchValue type α) : ∃ cases,
    (v.cases.insertionSort fun left right => left.caseValue ≤ right.caseValue) = cases ∧ cases.Perm v.cases ∧
      Increasing cases := by
  let le (left right : SwitchCase α) : Prop := left.caseValue ≤ right.caseValue
  have hp := perm_insertionSort le v.cases
  have hs := pairwise_insertionSort le v.cases
  have hn := pairwise_map.1 ((hp.map SwitchCase.caseValue).nodup_iff.2 v.nodup)
  exact ⟨_,rfl,hp,(hs.and hn).imp fun {c d} h => lt_of_le_of_ne h.1 h.2⟩

/-- The code for a Switch goes where the Switch goes exactly when there are few cases or the spread of their constants is a
number of 64 bits. -/
theorem lowerSwitch_iff {type : IntType} {α : Type} (value : SwitchValue type α) :
    (∀ x : BitVec type.width, (lowerSwitch value).run x = some (switchTarget value.cases value.fallThrough x.toInt)) ↔
      value.cases.length < minCasesForTable ∨
        ∀ c ∈ value.cases, ∀ d ∈ value.cases, d.caseValue - c.caseValue + 1 < 2^63 := by
  obtain ⟨cases,hcs,hp,h⟩ := exists_sorted value
  have hft : ∀ c ∈ cases, type.Fits c.caseValue := fun c hc => value.fits c (hp.mem_iff.1 hc)
  have ht (x : Int) : switchTarget value.cases value.fallThrough x = switchTarget cases value.fallThrough x :=
    switchTarget_congr value.nodup h.nodup fun c _ => hp.mem_iff.symm
  have hs : (∀ c ∈ value.cases, ∀ d ∈ value.cases, d.caseValue - c.caseValue + 1 < 2^63) ↔
      caseValueAt cases (cases.length-1) - caseValueAt cases 0 + 1 < 2^63 := by
    rw [h.spread_iff (by decide)]
    simp only [hp.mem_iff]
  rw [lowerSwitch,hcs,← hp.length_eq,hs]
  constructor
  · intro hr
    by_contra! hl
    have hls := hr (.ofInt type.width (caseValueAt cases (cases.length-1)))
    rw [run_overflow hft hl.1 hl.2] at hls
    cases hls
  · intro hsm x
    rw [ht]
    exact run_recursivelyBuildSwitch h hft (hp.length_eq ▸ value.size_le) hsm
      ⟨le_rfl,zero_le _,fun h => absurd rfl h,nofun,fun h => absurd h (lt_irrefl _)⟩

/-- Seven cases from the least to the largest number of 64 bits. -/
def wideSwitch : SwitchValue .int64 Nat where
  cases := [⟨-2^63,1⟩, ⟨0,2⟩, ⟨1,3⟩, ⟨2,4⟩, ⟨3,5⟩, ⟨4,6⟩, ⟨2^63 - 1,7⟩]
  fallThrough := 0
  fits := by decide
  nodup := by decide
  size_le := by decide

/-- The table check lets a value through to a table that cannot be made: already lowering the Switch dies, where a set of bits
would have to grow to the last index. -/
theorem lowerSwitch_wideSwitch : (lowerSwitch wideSwitch).run (BitVec.ofInt 64 5) = none ∧
    switchTarget wideSwitch.cases wideSwitch.fallThrough 5 = 0 := by
  decide +kernel

end WebKit.JavaScriptCore.B3
