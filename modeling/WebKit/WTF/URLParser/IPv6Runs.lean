import Mathlib.Data.List.Induction
import WebKit.WTF.URLParser.IPv6Standard

/-! The parser of IPv6 hosts against the URL Standard: it accepts a trailing colon after a compression, and refuses four decimal
bytes as the fifth and sixth piece beside a compression. -/
namespace WebKit.WTF.URLParser
open List Option Nat

section Swaps

private theorem swap_eq (A M B : List Nat) (x y : Nat) :
    swap (A ++ x :: (M ++ y::B)) (A.length+1+M.length) A.length = A ++ y :: (M ++ x::B) := by
  have hx : (A ++ x :: (M ++ y::B)).getD A.length 0 = x := by simp
  have ha : A ++ x :: (M ++ y::B) = (A ++ x::M) ++ y::B := by simp
  have hl : A.length + 1 + M.length = (A ++ x::M).length := by
    simp only [length_append,length_cons]
    omega
  have hy : (A ++ x :: (M ++ y::B)).getD (A.length+1+M.length) 0 = y := by
    rw [ha,hl]
    simp
  have hs : (A ++ x :: (M ++ y::B)).set (A.length+1+M.length) x = A ++ x :: (M ++ x::B) := by
    rw [ha,hl,set_append_right _ _ le_rfl,Nat.sub_self,set_cons_zero]
    simp
  rw [swap,hx,hy,hs,set_append_right _ _ le_rfl,Nat.sub_self,set_cons_zero]

private theorem swap_self (addr : List Nat) (i : Nat) : swap addr i i = addr := by
  rw [swap,set_set]
  by_cases hi : i < addr.length
  · rw [getD_eq_getElem _ _ hi,set_getElem_self]
  · rw [set_eq_of_length_le (Nat.le_of_not_lt hi)]

/-- The pieces after the compression change places with the zeros behind them. -/
theorem swapLoop_eq (before m done : List Nat) (g : Nat) :
    swapLoop before.length m.length (before.length+m.length+g-1)
        (before ++ (m ++ (replicate g 0 ++ done))) =
      before ++ (replicate g 0 ++ (m ++ done)) := by
  induction m using reverseRecOn generalizing done with
  | nil => rfl
  | append_singleton m x ih =>
    have hl : before.length + (m.length+1) - 1 = (before ++ m).length := by
      rw [length_append]
      omega
    rw [length_append,length_singleton,swapLoop,hl,append_assoc,singleton_append]
    have hn := ih (x::done)
    rw [append_assoc,singleton_append,← hn,show before.length + (m.length+1) + g - 1 - 1 =
      before.length + m.length + g - 1 by omega]
    congr 1
    cases g with
    | zero =>
      rw [show before.length + (m.length+1) + 0 - 1 = (before ++ m).length by omega]
      exact swap_self _ _
    | succ g =>
      have hs := swap_eq (before ++ m) (replicate g 0) done x 0
      rw [length_replicate,show (before ++ m).length + 1 + g = before.length + (m.length+1) + (g+1) - 1 by
        omega] at hs
      have hb : replicate (g+1) 0 ++ done = replicate g 0 ++ 0::done := by
        rw [replicate_succ',append_assoc]
        rfl
      rw [hb,← append_assoc,hs,append_assoc]
      rfl

end Swaps

/-- The address with the pieces read so far, a zero standing for the compression. -/
def fill (written : List Nat) : List Nat := written ++ replicate (8-written.length) 0

/-- The variables of the loop after the pieces read so far. -/
def stateAt (written : List Nat) (compressPointer : Option Nat) : Pieces := ⟨fill written,written.length,compressPointer⟩

variable {w values text rest : List Nat} {v high low : Nat} {cp : Option Nat}

private theorem fill_set (h : w.length < 8) (v : Nat) : (fill w).set w.length v = fill (w ++ [v]) := by
  obtain ⟨n,hn⟩ := Nat.exists_eq_add_of_lt h
  have hs : 8 - w.length = n + 1 := by omega
  have hnx : 8 - (w ++ [v]).length = n := by
    rw [length_append,length_singleton]
    omega
  rw [fill,fill,hs,hnx,set_append_right _ _ le_rfl,Nat.sub_self,replicate_succ,set_cons_zero,
    append_assoc]
  rfl

private theorem fill_zero (h : w.length < 8) : fill (w ++ [0]) = fill w := by
  obtain ⟨n,hn⟩ := Nat.exists_eq_add_of_lt h
  have hs : 8 - w.length = n + 1 := by omega
  have hnx : 8 - (w ++ [0]).length = n := by
    rw [length_append,length_singleton]
    omega
  rw [fill,fill,hs,hnx,replicate_succ,append_assoc]
  rfl

theorem ne_colon_of_digit {base d x : Nat} (h : digitOf base d = some x) : d ≠ colon := by
  rintro rfl
  cases h

theorem digit_of_mem {base vl : Nat} (h : digits base vl text = some v) : ∀ d ∈ text, ∃ x, digitOf base d = some x := by
  induction text generalizing vl with
  | nil => exact nofun
  | cons d rest ih =>
    rw [digits_cons] at h
    obtain ⟨x,hx,h⟩ := bind_eq_some_iff.1 h
    exact forall_mem_cons.2 ⟨⟨x,hx⟩,ih h⟩

theorem Quad.colon_notMem (h : Quad text high low) : colon ∉ text := by
  have hby {t : List Nat} {a : Nat} (ha : DecimalByte t a) : colon ∉ t := by
    intro hm
    obtain ⟨x,hx⟩ := digit_of_mem ha.eq colon hm
    exact ne_colon_of_digit hx rfl
  cases h with
  | mk ha hb hc hd =>
    simp only [mem_append,mem_cons,hby ha,hby hb,hby hc,hby hd]
    decide

theorem Quad.dot_mem (h : Quad text high low) : dot ∈ text := by
  cases h with
  | mk ha hb hc hd => exact mem_append_right _ mem_cons_self

private theorem quad_none_of_colon (h : colon ∈ text) : parseIPv4AddressInsideIPv6 plain text = none := by
  by_contra hs
  obtain ⟨a,ha⟩ := ne_none_iff_exists'.1 hs
  obtain ⟨high,low,hq,-⟩ := parseIPv4AddressInsideIPv6_iff.1 ha
  exact hq.colon_notMem h

private theorem quad_none_of_piece (h : Piece text v) : parseIPv4AddressInsideIPv6 plain text = none := by
  by_contra hs
  obtain ⟨a,ha⟩ := ne_none_iff_exists'.1 hs
  obtain ⟨high,low,hq,-⟩ := parseIPv4AddressInsideIPv6_iff.1 ha
  obtain ⟨x,hx⟩ := digit_of_mem h.eq dot hq.dot_mem
  exact ne_dot_of_digit hx rfl

theorem Piece.exists_cons (h : Piece text v) : ∃ d a, text = d :: a ∧ d ≠ colon := by
  obtain ⟨d,a,rfl⟩ := exists_cons_of_ne_nil (length_pos_iff.1 h.pos)
  obtain ⟨x,hx⟩ := digit_of_mem h.eq d mem_cons_self
  exact ⟨d,a,rfl,ne_colon_of_digit hx⟩

/-- One round of the loop, in terms of the pieces read so far. -/
theorem piecesLoop_stateAt (hw : w.length ≤ 8) (d : Nat) : piecesLoop plain (stateAt w cp) (d::rest) =
      if w.length = 8 then none
      else if d = colon then
        if cp.isSome then none else piecesLoop plain (stateAt (w ++ [0]) (some (w.length+1))) rest
      else
        match (if w.length = 6 ∨ (cp.isSome ∧ w.length < 6) then parseIPv4AddressInsideIPv6 plain (d::rest) else none) with
        | some a =>
          if cp.isSome ∧ w.length = 5 then none else some (stateAt (w ++ [(a >>> 16)%2^16, a &&& 0xFFFF]) cp)
        | none =>
          match hexDigitsLoop plain 4 0 (d::rest) with
          | (vl, []) => some (stateAt (w ++ [vl]) cp)
          | (vl, e::after) =>
            if w.length + 1 = 8 ∨ e ≠ colon then none else piecesLoop plain (stateAt (w ++ [vl]) cp) after := by
  have hst (hl : w.length < 8) (vl : Nat) : stateAt (w ++ [vl]) cp = ⟨(fill w).set w.length vl,w.length + 1,cp⟩ := by
    rw [stateAt,fill_set hl,length_append,length_singleton]
  have hr := piecesLoop_cons plain ⟨fill w,w.length,cp⟩ d rest
  dsimp only at hr
  rw [show piecesLoop plain (stateAt w cp) (d::rest) = piecesLoop plain ⟨fill w,w.length,cp⟩ (d::rest) from rfl,hr]
  by_cases hf : w.length = 8
  · simp only [hf,if_true]
  have hl : w.length < 8 := by omega
  have hz : stateAt (w ++ [0]) (some (w.length+1)) = ⟨fill w,w.length + 1,some (w.length+1)⟩ := by
    rw [stateAt,fill_zero hl,length_append,length_singleton]
  simp only [hf,if_false,advance_plain,hz,hst hl]
  by_cases hc : d = colon
  · simp only [hc,if_true]
  simp only [hc,if_false]
  obtain ⟨q,hq⟩ : ∃ q, (if w.length = 6 ∨ (cp.isSome ∧ w.length < 6) then
      parseIPv4AddressInsideIPv6 plain (d::rest) else none) = q := ⟨_,rfl⟩
  simp only [hq]
  cases q with
  | some a =>
    have ht : w.length < 7 := by
      by_contra ht
      rw [if_neg fun h => ht (by omega)] at hq
      cases hq
    have hn : (w ++ [(a >>> 16)%2^16]).length = w.length + 1 := by rw [length_append,length_singleton]
    have htw := fill_set (show (w ++ [(a >>> 16)%2^16]).length < 8 by omega) (a &&& 0xFFFF)
    rw [hn,← fill_set hl,append_assoc] at htw
    have hs : stateAt (w ++ [(a >>> 16)%2^16, a &&& 0xFFFF]) cp =
        ⟨((fill w).set w.length ((a >>> 16)%2^16)).set (w.length+1) (a &&& 0xFFFF),w.length + 2,cp⟩ := by
      simp only [htw,stateAt,length_append,singleton_append,length_cons,length_nil]
    simp only [hs]
  | none => rfl

theorem piecesLoop_piece (h : Piece text v) (hw : w.length < 7) :
    piecesLoop plain (stateAt w cp) (text ++ colon::rest) = piecesLoop plain (stateAt (w ++ [v]) cp) rest := by
  have hq : parseIPv4AddressInsideIPv6 plain (text ++ colon::rest) = none :=
    quad_none_of_colon (mem_append_right _ mem_cons_self)
  have hh : hexDigitsLoop plain 4 0 (text ++ colon::rest) = (v, colon::rest) :=
    hexDigitsLoop_digits (by decide) h.eq h.le (.inr (fun e he => by rw [← some.inj he]; rfl))
  obtain ⟨d,a,rfl,hd⟩ := h.exists_cons
  rw [cons_append] at hq hh ⊢
  rw [piecesLoop_stateAt (by omega),if_neg (by omega),if_neg hd,hq,ite_self,hh]
  exact if_neg (by rw [not_or,not_not]; exact ⟨by omega,rfl⟩)

private theorem piecesLoop_lastPiece (h : Piece text v) (hw : w.length < 8) :
    piecesLoop plain (stateAt w cp) text = some (stateAt (w ++ [v]) cp) := by
  have hq := quad_none_of_piece h
  have hh : hexDigitsLoop plain 4 0 (text ++ []) = (v, []) := hexDigitsLoop_digits (by decide) h.eq h.le (.inr nofun)
  rw [append_nil] at hh
  obtain ⟨d,a,rfl,hd⟩ := h.exists_cons
  rw [piecesLoop_stateAt (by omega),if_neg (by omega),if_neg hd,hq,ite_self,hh]

theorem quad_words (hh : high < 2^16) (hl : low < 2^16) :
    ((high*65536+low) >>> 16)%2^16 = high ∧ (high*65536+low) &&& 0xFFFF = low := by
  rw [shiftRight_eq_div_pow,show 0xFFFF = 2^16 - 1 from rfl,and_two_pow_sub_one_eq_mod]
  omega

/-- Four decimal bytes at the end, at a place where they are tried. -/
theorem piecesLoop_quad (h : Quad text high low) (hw : w.length = 6 ∨ (cp.isSome ∧ w.length < 6)) :
    piecesLoop plain (stateAt w cp) text =
      if cp.isSome ∧ w.length = 5 then none else some (stateAt (w ++ [high, low]) cp) := by
  have ha := parseIPv4AddressInsideIPv6_iff.2 ⟨high,low,h,rfl⟩
  obtain ⟨hh,hl⟩ := h.lt
  obtain ⟨d,rest,rfl⟩ := exists_cons_of_ne_nil (ne_nil_of_mem h.dot_mem)
  have hd : d ≠ colon := fun he => h.colon_notMem (he ▸ mem_cons_self)
  rw [piecesLoop_stateAt (by omega),if_neg (by omega),if_neg hd,if_pos hw,ha]
  dsimp only
  rw [(quad_words hh hl).1,(quad_words hh hl).2]

private theorem piecesLoop_colon (hw : w.length < 8) :
    piecesLoop plain (stateAt w none) (colon::rest) = piecesLoop plain (stateAt (w ++ [0]) (some (w.length+1))) rest := by
  rw [piecesLoop_stateAt (by omega),if_neg (by omega),if_pos rfl]
  rfl

theorem piecesLoop_listed_colon (h : Listed false text values) (hw : w.length + values.length ≤ 7) :
    piecesLoop plain (stateAt w cp) (text ++ colon::rest) = piecesLoop plain (stateAt (w ++ values) cp) rest := by
  generalize hq : false = quad at h
  induction h generalizing w with
  | piece hp =>
    rw [length_singleton] at hw
    exact piecesLoop_piece hp (by omega)
  | quad _ => cases hq
  | cons hp _ ih =>
    rw [length_cons] at hw
    rw [append_assoc,cons_append,piecesLoop_piece hp (by omega),
      ih (by rw [length_append,length_singleton]; omega) hq,append_assoc]
    rfl

variable {quad : Bool} {before : List Nat}

/-- The bytes are refused as the fifth and sixth piece beside a compression. -/
theorem piecesLoop_listed (h : Listed quad text values) (hw : w.length + values.length ≤ 8)
    (hq : quad → cp = none → w.length + values.length = 8) :
    piecesLoop plain (stateAt w cp) text =
      if quad ∧ cp.isSome ∧ w.length + values.length = 7 then none else some (stateAt (w ++ values) cp) := by
  induction h generalizing w with
  | piece hp =>
    rw [length_singleton] at hw
    rw [piecesLoop_lastPiece hp (by omega),if_neg (by simp)]
  | quad hb =>
    simp only [length_cons,length_nil] at hw hq ⊢
    have ht : w.length = 6 ∨ (cp.isSome ∧ w.length < 6) := by
      cases cp with
      | none => exact .inl (by simpa using hq)
      | some k => exact (lt_or_eq_of_le (by omega)).elim (fun h => .inr ⟨rfl,h⟩) .inl
    rw [piecesLoop_quad hb ht]
    refine if_congr ?_ rfl rfl
    simp
  | cons hp hr ih =>
    have hps := hr.length_pos
    rw [length_cons] at hw
    have hn (values : List Nat) (v : Nat) : (w ++ [v]).length + values.length = w.length + (v::values).length := by
      simp only [length_append,length_cons,length_nil]
      omega
    rw [piecesLoop_piece hp (by omega),ih (by rw [hn]; exact hw) (by rwa [hn]),hn,append_assoc]
    rfl

/-- The runs of the loop that end with a state. -/
inductive Run : List Nat → Option Nat → List Nat → Pieces → Prop where
  | done {w : List Nat} {cp : Option Nat} : Run w cp [] (stateAt w cp)
  | colon {w rest : List Nat} {s : Pieces} (hw : w.length < 8) (hrest : Run (w ++ [0]) (some (w.length+1)) rest s) :
    Run w none (colon::rest) s
  | piece {w text rest : List Nat} {v : Nat} {cp : Option Nat} {s : Pieces} (hw : w.length < 7) (h : Piece text v)
    (hrest : Run (w ++ [v]) cp rest s) : Run w cp (text ++ URLParser.colon::rest) s
  | lastPiece {w text : List Nat} {v : Nat} {cp : Option Nat} (hw : w.length < 8) (h : Piece text v) :
    Run w cp text (stateAt (w ++ [v]) cp)
  | quad {w text : List Nat} {high low : Nat} {cp : Option Nat} (hw : w.length = 6 ∨ (cp.isSome ∧ w.length < 6))
    (hfive : ¬ (cp.isSome ∧ w.length = 5)) (h : Quad text high low) : Run w cp text (stateAt (w ++ [high, low]) cp)

variable {s : Pieces}

private theorem run_of_piecesLoop (hw : w.length ≤ 8) (h : piecesLoop plain (stateAt w cp) text = some s) : Run w cp text s := by
  induction hn : text.length using Nat.strong_induction_on generalizing w cp text with
  | _ n ih =>
  cases text with
  | nil =>
    rw [piecesLoop] at h
    rw [← some.inj h]
    exact .done
  | cons d rest =>
    rw [piecesLoop_stateAt hw] at h
    by_cases hf : w.length = 8
    · rw [if_pos hf] at h
      cases h
    rw [if_neg hf] at h
    by_cases hc : d = colon
    · subst hc
      cases cp with
      | some k => cases h
      | none =>
        exact .colon (by omega) (ih rest.length (by rw [← hn,length_cons]; omega)
          (by rw [length_append,length_singleton]; omega) h rfl)
    rw [if_neg hc] at h
    have hp : (match hexDigitsLoop plain 4 0 (d::rest) with
        | (vl, []) => some (stateAt (w ++ [vl]) cp)
        | (vl, e::a) =>
          if w.length + 1 = 8 ∨ e ≠ colon then none else piecesLoop plain (stateAt (w ++ [vl]) cp) a) = some s →
        Run w cp (d::rest) s := by
      intro h
      obtain ⟨text,ht,hl,hdg⟩ := digits_of_hexDigitsLoop (show (0+1)*16^4 ≤ 2^16 by decide) (d::rest)
      rcases hh : hexDigitsLoop plain 4 0 (d::rest) with ⟨vl,_ | ⟨e,a⟩⟩
      · rw [hh] at h ht hdg
        rw [append_nil] at ht
        rw [← some.inj h,ht]
        exact .lastPiece (by omega) ⟨by rw [← ht]; exact succ_pos _,hl,hdg⟩
      · rw [hh] at h ht hdg
        dsimp only at h ht
        split_ifs at h with he
        rw [not_or,not_not] at he
        obtain ⟨hs,rfl⟩ := he
        have hne : text ≠ [] := by
          rintro rfl
          exact hc (cons.inj ht).1
        rw [ht]
        refine .piece (by omega) ⟨length_pos_iff.2 hne,hl,hdg⟩ (ih a.length ?_ ?_ h rfl)
        · rw [← hn,ht,length_append,length_cons]
          omega
        · rw [length_append,length_singleton]
          omega
    by_cases htr : w.length = 6 ∨ (cp.isSome ∧ w.length < 6)
    · rw [if_pos htr] at h
      cases ha : parseIPv4AddressInsideIPv6 plain (d::rest) with
      | none =>
        rw [ha] at h
        exact hp h
      | some ad =>
        obtain ⟨high,low,hb,rfl⟩ := parseIPv4AddressInsideIPv6_iff.1 ha
        rw [ha] at h
        split_ifs at h with hfive
        rw [← some.inj h,(quad_words hb.lt.1 hb.lt.2).1,(quad_words hb.lt.1 hb.lt.2).2]
        exact .quad htr hfive hb
    · rw [if_neg htr] at h
      exact hp h

theorem length_snoc_add (w values : List Nat) (v : Nat) : (w ++ [v]).length + values.length = w.length + (v::values).length := by
  simp only [length_append,length_cons,length_nil]
  omega

/-- After a compression: pieces, or pieces and a colon at the end. -/
theorem Run.rest_of_compressed {k : Nat} (h : Run w (some k) text s) (hw : w.length ≤ 8) :
    ∃ values, s = stateAt (w ++ values) (some k) ∧ w.length + values.length ≤ 8 ∧
      (ListedOrEmpty false text values ∨ (Listed true text values ∧ w.length + values.length ≠ 7) ∨
        ∃ t, text = t ++ [URLParser.colon] ∧ Listed false t values ∧ w.length + values.length ≤ 7) := by
  generalize hc : some k = cp at h
  induction h with
  | done => exact ⟨[],by rw [append_nil],hw,.inl (.inr ⟨rfl,rfl⟩)⟩
  | colon _ _ _ => cases hc
  | @piece w text rest v cp s hlt h _ ih =>
    obtain ⟨values,hs,hle,hr⟩ := ih (by rw [length_append,length_singleton]; omega) hc
    rw [length_snoc_add] at hle hr
    refine ⟨v::values,by rw [hs,append_assoc]; rfl,hle,?_⟩
    obtain (hl | ⟨rfl,rfl⟩) | ⟨hq,hsv⟩ | ⟨t,rfl,hl,hsv⟩ := hr
    · exact .inl (.inl (.cons h hl))
    · exact .inr (.inr ⟨text,rfl,.piece h,hlt⟩)
    · exact .inr (.inl ⟨.cons h hq,hsv⟩)
    · exact .inr (.inr ⟨text ++ URLParser.colon::t,by rw [append_assoc]; rfl,.cons h hl,hsv⟩)
  | @lastPiece w text v cp hlt h => exact ⟨[v],rfl,hlt,.inl (.inl (.piece h))⟩
  | @quad w text high low cp ht hf h =>
    rw [← hc] at hf ht
    have hn : w.length ≠ 5 := fun he => hf ⟨rfl,he⟩
    refine ⟨[high, low],rfl,?_,.inr (.inl ⟨.quad h,?_⟩)⟩
    · simp only [length_cons,length_nil]
      omega
    · simp only [length_cons,length_nil]
      omega

/-- Before a compression: pieces up to the end, or up to the compression. -/
theorem Run.cases_of_uncompressed (h : Run w none text s) :
    (∃ values, s = stateAt (w ++ values) none ∧ (w.length + values.length = 8 → ∃ quad, ListedOrEmpty quad text values)) ∨
    ∃ left before right, (text = URLParser.colon :: right ∧ before = [] ∨
        Listed false left before ∧ text = left ++ URLParser.colon::URLParser.colon::right) ∧
      w.length + before.length ≤ 7 ∧ Run (w ++ before ++ [0]) (some (w.length+before.length+1)) right s := by
  generalize hc : none = cp at h
  induction h with
  | done => exact .inl ⟨[],by rw [append_nil],fun _ => ⟨false,.inr ⟨rfl,rfl⟩⟩⟩
  | @colon w rest s hlt hrs _ =>
    refine .inr ⟨[],[],rest,.inl ⟨rfl,rfl⟩,le_of_lt_succ hlt,?_⟩
    rw [append_nil]
    exact hrs
  | @piece w text rest v cp s hlt h hrs ih =>
    obtain ⟨values,hs,hl⟩ | ⟨left,before,right,hf,hle,hr⟩ := ih hc
    · refine .inl ⟨v::values,by rw [hs,append_assoc]; rfl,fun ha => ?_⟩
      obtain ⟨quad,hl | ⟨rfl,rfl⟩⟩ := hl (by rw [length_snoc_add]; exact ha)
      · exact ⟨quad,.inl (.cons h hl)⟩
      · simp only [length_cons,length_nil] at ha
        omega
    · rw [length_snoc_add] at hle hr
      rw [append_assoc w] at hr
      obtain ⟨rfl,rfl⟩ | ⟨hl,rfl⟩ := hf
      · exact .inr ⟨text,[v],right,.inr ⟨.piece h,rfl⟩,hle,hr⟩
      · refine .inr ⟨text ++ URLParser.colon::left,v::before,right,.inr ⟨.cons h hl,?_⟩,hle,hr⟩
        rw [append_assoc]
        rfl
  | @lastPiece w text v cp hlt h => exact .inl ⟨[v],rfl,fun _ => ⟨false,.inl (.piece h)⟩⟩
  | @quad w text high low cp ht hfv h => exact .inl ⟨[high, low],rfl,fun _ => ⟨true,.inl (.quad h)⟩⟩

theorem finishPieces_compressed {a : List Nat} (h : before.length + a.length ≤ 7) :
    finishPieces (stateAt (before ++ [0] ++ a) (some (before.length+1))) =
      some (before ++ replicate (8-before.length-a.length) 0 ++ a) := by
  have hs : (before ++ [0] ++ a).length - (before.length+1) = a.length := by
    simp only [length_append,length_singleton]
    omega
  have hg : 8 - (before ++ [0] ++ a).length = 7 - before.length - a.length := by
    simp only [length_append,length_singleton]
    omega
  have hl := swapLoop_eq (before ++ [0]) a [] (7-before.length-a.length)
  rw [length_append,length_singleton,
    show before.length + 1 + a.length + (7-before.length-a.length) - 1 = 7 by omega] at hl
  rw [finishPieces,stateAt]
  dsimp only
  rw [hs,fill,hg]
  rw [append_nil,append_nil,← append_assoc (before ++ [0]) a] at hl
  rw [hl,append_assoc before,append_assoc before,← append_assoc [0],
    show 8 - before.length - a.length = 7 - before.length - a.length + 1 by omega]
  rfl

theorem startPieces_compressed (rest : List Nat) :
    startPieces plain (colon::colon::rest) = some (stateAt [0] (some 1), rest) := by
  rw [startPieces,if_neg (cons_ne_nil _ _),head?_cons,if_pos rfl,advance_plain,head?_cons,if_pos rfl,advance_plain]
  rfl

theorem startPieces_uncompressed {d : Nat} (hd : d ≠ colon) (rest : List Nat) :
    startPieces plain (d::rest) = some (stateAt [] none, d::rest) := by
  rw [startPieces,if_neg (cons_ne_nil _ _),head?_cons,if_neg (fun he => hd (some.inj he))]
  rfl

theorem Listed.exists_cons (h : Listed quad text values) : ∃ d a, text = d :: a ∧ d ≠ colon := by
  cases h with
  | piece h => exact h.exists_cons
  | quad h =>
    obtain ⟨d,a,rfl⟩ := exists_cons_of_ne_nil (ne_nil_of_mem h.dot_mem)
    exact ⟨d,a,rfl,fun he => h.colon_notMem (he ▸ mem_cons_self)⟩
  | cons h _ =>
    obtain ⟨d,a,rfl,hd⟩ := h.exists_cons
    exact ⟨d,a ++ colon::_,rfl,hd⟩

theorem parseIPv6With_compressed {left right : List Nat} (b : Nat) (hl : ListedOrEmpty false left before)
    (hln : before.length ≤ 7) :
    parseIPv6With plain (b :: (left ++ colon::colon::right)) =
      (piecesLoop plain (stateAt (before ++ [0]) (some (before.length+1))) right).bind finishPieces := by
  rw [parseIPv6With,advance_plain]
  obtain hl | ⟨rfl,rfl⟩ := hl
  · obtain ⟨d,a,rfl,hd⟩ := hl.exists_cons
    have hp : piecesLoop plain (stateAt [] none) ((d::a) ++ colon::colon::right) = _ :=
      piecesLoop_listed_colon hl (by rw [length_nil]; omega)
    rw [nil_append,piecesLoop_colon (by omega)] at hp
    rw [cons_append,startPieces_uncompressed hd,← cons_append]
    dsimp only [bind_eq_bind,bind_some]
    rw [hp]
  · rw [nil_append,startPieces_compressed]
    rfl

private theorem parseIPv6With_listed {addr : List Nat} (b : Nat) (h : Listed quad text addr)
    (hl : addr.length = 8) : parseIPv6With plain (b::text) = some addr := by
  have hp : piecesLoop plain (stateAt [] none) text = _ :=
    piecesLoop_listed h (by rw [length_nil]; omega) (fun _ _ => by rw [length_nil]; omega)
  obtain ⟨d,a,rfl,hd⟩ := h.exists_cons
  rw [parseIPv6With,advance_plain,startPieces_uncompressed hd]
  dsimp only [bind_eq_bind,bind_some]
  rw [hp,if_neg (by simp),bind_some,nil_append,finishPieces,stateAt]
  rw [if_pos hl,fill,hl,replicate_zero,append_nil]

/-- A full list, or a compression with an accepted run after it. -/
theorem cases_of_parseIPv6With {b : Nat} {addr : List Nat} (h : parseIPv6With plain (b::text) = some addr) :
    (∃ quad, Listed quad text addr ∧ addr.length = 8) ∨
    ∃ left before right s, ListedOrEmpty false left before ∧ text = left ++ colon :: colon :: right ∧ before.length ≤ 7 ∧
      Run (before ++ [0]) (some (before.length+1)) right s ∧ finishPieces s = some addr := by
  rw [parseIPv6With,advance_plain] at h
  obtain ⟨⟨st,c⟩,hs,h⟩ := bind_eq_some_iff.1 h
  obtain ⟨s,hlp,hfn⟩ := bind_eq_some_iff.1 h
  cases text with
  | nil => cases hs
  | cons d rest =>
    by_cases hd : d = colon
    · subst hd
      cases rest with
      | nil => cases hs
      | cons e right =>
        by_cases he : e = colon
        · subst he
          rw [startPieces_compressed] at hs
          obtain ⟨rfl,rfl⟩ := Prod.mk.inj (some.inj hs)
          exact .inr ⟨[],[],right,s,.inr ⟨rfl,rfl⟩,rfl,zero_le 7,run_of_piecesLoop (by decide) hlp,hfn⟩
        · rw [startPieces,if_neg (cons_ne_nil _ _),head?_cons,if_pos rfl,advance_plain,head?_cons,
            if_neg (fun heq => he (some.inj heq))] at hs
          cases hs
    · rw [startPieces_uncompressed hd] at hs
      obtain ⟨rfl,rfl⟩ := Prod.mk.inj (some.inj hs)
      have hr : Run [] none (d::rest) s := run_of_piecesLoop (zero_le 8) hlp
      obtain ⟨values,rfl,hl⟩ | ⟨left,before,right,hf,hle,hr⟩ := hr.cases_of_uncompressed
      · rw [nil_append,finishPieces,stateAt] at hfn
        dsimp only at hfn
        split_ifs at hfn with hln
        rw [fill,hln,replicate_zero,append_nil] at hfn
        obtain rfl := some.inj hfn
        rw [length_nil,zero_add] at hl
        obtain ⟨quad,hl | ⟨hn,-⟩⟩ := hl hln
        · exact .inl ⟨quad,hl,hln⟩
        · cases hn
      · rw [length_nil,zero_add] at hle hr
        obtain ⟨ht,-⟩ | ⟨hl,ht⟩ := hf
        · exact absurd (cons.inj ht).1 hd
        · exact .inr ⟨left,before,right,s,.inl hl,ht,hle,hr,hfn⟩

/-- A compression, pieces after it, and a colon at the end. -/
def TrailingColon (text : List Nat) : Prop :=
  ∃ left before right after, ListedOrEmpty false left before ∧ Listed false right after ∧ before.length + after.length ≤ 6 ∧
    text = left ++ colon :: colon :: (right ++ [colon])

/-- Four decimal bytes after four pieces and a compression. -/
def QuadAfterFour (text : List Nat) : Prop :=
  ∃ left before right after, ListedOrEmpty false left before ∧ Listed true right after ∧ before.length + after.length = 6 ∧
    text = left ++ colon::colon::right

theorem getLast?_append_cons (before : List Nat) (d : Nat) (h : text ≠ []) :
    (before ++ d::text).getLast? = text.getLast? := by
  rw [getLast?_append_of_ne_nil _ (cons_ne_nil _ _),getLast?_cons_of_ne_nil h]

theorem Listed.getLast?_ne (h : Listed quad text values) : text.getLast? ≠ some colon := by
  have hdg {base : Nat} {t : List Nat} {v : Nat} (ht : digits base 0 t = some v) : t.getLast? ≠ some colon := by
    intro he
    obtain ⟨x,hx⟩ := digit_of_mem ht colon (mem_of_getLast? he)
    exact ne_colon_of_digit hx rfl
  induction h with
  | piece h => exact hdg h.eq
  | quad h =>
    cases h with
    | mk ha hb hc hd =>
      have hn := length_pos_iff.1 hd.pos
      rw [getLast?_append_cons _ _ (by simp),getLast?_append_cons _ _ (by simp),getLast?_append_cons _ _ hn]
      exact hdg hd.eq
  | @cons quad text rest vl values h hr ih =>
    obtain ⟨d,a,rfl,-⟩ := hr.exists_cons
    rwa [getLast?_append_cons _ _ (cons_ne_nil _ _)]

theorem not_denotes_of_trailingColon (h : TrailingColon text) (addr : List Nat) : ¬ Denotes text addr := by
  obtain ⟨left,before,right,af,-,hr,-,rfl⟩ := h
  have hl : (left ++ colon :: colon :: (right ++ [colon])).getLast? = some colon := by
    rw [getLast?_append_cons _ _ (cons_ne_nil _ _),getLast?_cons_of_ne_nil (by simp),getLast?_concat]
  obtain ⟨d,rest,rfl,-⟩ := hr.exists_cons
  intro hdn
  generalize ht : left ++ colon :: colon :: (d :: rest ++ [colon]) = text at hl hdn
  cases hdn with
  | full h _ => exact h.getLast?_ne hl
  | @compressed quad left' right' before' af' hlf' hr' _ =>
    obtain hr' | ⟨rfl,rfl⟩ := hr'
    · obtain ⟨e,rest',rfl,-⟩ := hr'.exists_cons
      rw [getLast?_append_cons _ _ (cons_ne_nil _ _),getLast?_cons_of_ne_nil (cons_ne_nil _ _)] at hl
      exact hr'.getLast?_ne hl
    · -- a compression at the end has a colon before its last colon
      have hdr := congrArg (fun text => text.dropLast.getLast?) ht
      rw [show left ++ colon :: colon :: (d :: rest ++ [colon]) = (left ++ colon::colon::d::rest) ++ [colon] by simp,
        show left' ++ [colon, colon] = (left' ++ [colon]) ++ [colon] by simp] at hdr
      simp only [dropLast_concat,getLast?_concat] at hdr
      rw [getLast?_append_cons _ _ (cons_ne_nil _ _),getLast?_cons_of_ne_nil (cons_ne_nil _ _)] at hdr
      exact hr.getLast?_ne hdr

theorem piecesLoop_after {a right : List Nat} (h : Listed quad right a)
    (hl : before.length + a.length ≤ 7) :
    piecesLoop plain (stateAt (before ++ [0]) (some (before.length+1))) right =
      if quad ∧ before.length + a.length = 6 then none else some (stateAt (before ++ [0] ++ a) (some (before.length+1))) := by
  have hn : (before ++ [0]).length + a.length = before.length + a.length + 1 := by
    rw [length_append,length_singleton]
    omega
  have hc : (some (before.length+1)) = none → (before ++ [0]).length + a.length = 8 := nofun
  rw [piecesLoop_listed h (by omega) (fun _ => hc),hn]
  refine if_congr ?_ rfl rfl
  simp

private theorem parseIPv6With_denoted {left right a : List Nat} (hl : ListedOrEmpty false left before)
    (hr : ListedOrEmpty quad right a) (hln : before.length + a.length ≤ 7)
    (hq : Listed quad right a → ¬ (quad ∧ before.length + a.length = 6)) :
    parseIPv6With plain (0x5B :: (left ++ colon::colon::right)) =
      some (before ++ replicate (8-before.length-a.length) 0 ++ a) := by
  rw [parseIPv6With_compressed 0x5B hl (by omega)]
  obtain hr | ⟨rfl,rfl⟩ := hr
  · rw [piecesLoop_after hr hln,if_neg (hq hr),bind_some,finishPieces_compressed hln]
  · rw [piecesLoop,bind_some]
    have hf := finishPieces_compressed hln
    rwa [append_nil] at hf

/-- The parser accepts exactly what the standard does, with its result, if and only if the text without tabs and newlines neither ends
with a colon after a compression and pieces nor has four decimal bytes after four pieces and a compression. -/
theorem parseIPv6Host_iff (host : List Nat) :
    (∀ address, parseIPv6Host (0x5B :: host) = some address ↔ Denotes (kept isTabOrNewline host) address) ↔
      ¬ TrailingColon (kept isTabOrNewline host) ∧ ¬ QuadAfterFour (kept isTabOrNewline host) := by
  have hp : parseIPv6Host (0x5B :: host) = parseIPv6With plain (0x5B :: kept isTabOrNewline host) := parseIPv6With_kept 0x5B host
  rw [hp]
  generalize kept isTabOrNewline host = text
  have hn (before after : List Nat) : (before ++ [0]).length + after.length = before.length + after.length + 1 := by
    rw [length_append,length_singleton]
    omega
  constructor
  · intro ha
    constructor
    · intro ht
      have hnn := not_denotes_of_trailingColon ht
      obtain ⟨left,before,right,after,hlf,hr,hln,rfl⟩ := ht
      refine hnn (before ++ replicate (8-before.length-after.length) 0 ++ after) ((ha _).1 ?_)
      rw [parseIPv6With_compressed 0x5B hlf (by omega),piecesLoop_listed_colon hr (by rw [hn]; omega),piecesLoop,
        bind_some,finishPieces_compressed (by omega)]
    · rintro ⟨left,before,right,after,hlf,hr,hln,rfl⟩
      have hs := (ha _).2 (.compressed hlf (.inl hr) (by omega))
      rw [parseIPv6With_compressed 0x5B hlf (by omega),piecesLoop_after hr (by omega),if_pos ⟨rfl,hln⟩] at hs
      cases hs
  · rintro ⟨ht,hq⟩ address
    constructor
    · intro h
      obtain ⟨quad,hl,hln⟩ | ⟨left,before,right,s,hlf,rfl,hle,hrn,hf⟩ := cases_of_parseIPv6With h
      · exact .full hl hln
      · obtain ⟨after,rfl,hrm,hrest⟩ := hrn.rest_of_compressed (by rw [length_append,length_singleton]; omega)
        rw [hn] at hrm hrest
        rw [finishPieces_compressed (by omega)] at hf
        rw [← some.inj hf]
        obtain hl | ⟨hl,-⟩ | ⟨t,rfl,hl,hsv⟩ := hrest
        · exact .compressed hlf hl (by omega)
        · exact .compressed hlf (.inl hl) (by omega)
        · exact absurd ⟨left,before,t,after,hlf,hl,by omega,rfl⟩ ht
    · intro h
      cases h with
      | full h hln => exact parseIPv6With_listed 0x5B h hln
      | @compressed quad left right before after hlf hr hln =>
        refine parseIPv6With_denoted hlf hr hln fun hl hsx => ?_
        obtain ⟨rfl,hsx⟩ := hsx
        exact hq ⟨left,before,right,after,hlf,hl,hsx,rfl⟩

/-- The text 1::2: is accepted, and 1:2:3:4::1.2.3.4 is refused. -/
theorem parseIPv6Host_deviates : (parseIPv6Host [0x5B, 0x31, 0x3A, 0x3A, 0x32, 0x3A] = some [1, 0, 0, 0, 0, 0, 0, 2] ∧
      ∀ address, ¬ Denotes [0x31, 0x3A, 0x3A, 0x32, 0x3A] address) ∧
    (parseIPv6Host [0x5B, 0x31, 0x3A, 0x32, 0x3A, 0x33, 0x3A, 0x34, 0x3A, 0x3A, 0x31, 0x2E, 0x32, 0x2E, 0x33, 0x2E, 0x34] = none ∧
      Denotes [0x31, 0x3A, 0x32, 0x3A, 0x33, 0x3A, 0x34, 0x3A, 0x3A, 0x31, 0x2E, 0x32, 0x2E, 0x33, 0x2E, 0x34]
        [1, 2, 3, 4, 0, 0, 0x102, 0x304]) := by
  have hp {d v : Nat} (h : digits 16 0 [d] = some v) : Piece [d] v := ⟨Nat.one_pos,Nat.le_add_left 1 3,h⟩
  have hb {d v : Nat} (h : digits 10 0 [d] = some v) (hv : v ≤ 255) : DecimalByte [d] v := ⟨Nat.one_pos,h,hv,fun _ => rfl⟩
  have hl : Listed false ([0x31] ++ colon :: ([0x32] ++ colon :: ([0x33] ++ colon :: [0x34]))) [1, 2, 3, 4] :=
    .cons (hp rfl) (.cons (hp rfl) (.cons (hp rfl) (.piece (hp rfl))))
  have hr : Listed true ([0x31] ++ dot :: ([0x32] ++ dot :: ([0x33] ++ dot :: [0x34]))) [1*256 + 2, 3*256 + 4] :=
    .quad (.mk (hb rfl (by decide)) (hb rfl (by decide)) (hb rfl (by decide)) (hb rfl (by decide)))
  refine ⟨⟨by decide +kernel,not_denotes_of_trailingColon ?_⟩,by decide +kernel,.compressed (.inl hl) (.inl hr) (by decide)⟩
  exact ⟨[0x31],[1],[0x32],[2],.inl (.piece (hp rfl)),.piece (hp rfl),by decide,rfl⟩

end WebKit.WTF.URLParser
