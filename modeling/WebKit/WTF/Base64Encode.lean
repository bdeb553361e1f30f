import Mathlib.Data.List.Basic
import Mathlib.Tactic.Ring
import WebKit.WTF.Base64

/-! The text that the Base64 encoder writes. -/
namespace WebKit.WTF.Base64
open List Option

section
variable (encodeMap : List UInt8)

def fullGroups : List UInt8 → List (List UInt8)
  | a::b::c::rest =>
    [encodeAt encodeMap (firstSextet a), encodeAt encodeMap (secondSextet a b), encodeAt encodeMap (thirdSextet b c),
      encodeAt encodeMap (fourthSextet c)] :: fullGroups rest
  | _ => []

/-- The characters of the bytes after the last group of three. -/
def lastGroup : List UInt8 → List UInt8
  | _::_::_::rest => lastGroup rest
  | [a, b] =>
    [encodeAt encodeMap (firstSextet a), encodeAt encodeMap (secondSextet a b), encodeAt encodeMap (lastOfTwo b)]
  | [a] => [encodeAt encodeMap (firstSextet a), encodeAt encodeMap (lastOfOne a)]
  | [] => []

def padding (policy : EncodePolicy) (data : List UInt8) : List UInt8 :=
  if policy = .url then [] else replicate ((3-data.length%3)%3) equalsSign

def plainText (policy : EncodePolicy) (data : List UInt8) : List UInt8 :=
  (fullGroups encodeMap data).flatten ++ lastGroup encodeMap data ++ padding policy data

end

/-- A line feed after every 76 characters except at the end. -/
def breakLines (text : List UInt8) : List UInt8 :=
  if text.length ≤ 76 then text else text.take 76 ++ lineFeed :: breakLines (text.drop 76)
termination_by text.length
decreasing_by rw [length_drop]; omega

variable {encodeMap : List UInt8} {insertLFs : Bool} {data : List UInt8} {output : Output} {out : List UInt8} {size : Nat}

/-- What the encoder has written so far. -/
structure Filled (output : Output) (written : List UInt8) (size : Nat) : Prop where
  length : output.out.length = size
  didx : output.didx = written.length
  take : output.out.take written.length = written

theorem Filled.put (h : Filled output out size) (hs : out.length < size) (c : UInt8) :
    ∃ output', output.put c = some output' ∧ Filled output' (out ++ [c]) size := by
  refine ⟨⟨output.out.set output.didx c,output.didx + 1⟩,?_,?_,?_,?_⟩
  · rw [Output.put,h.didx,h.length,if_pos hs]
  · rw [length_set,h.length]
  · rw [h.didx,length_append,length_singleton]
  · rw [h.didx,length_append,length_singleton,take_add_one,take_set_of_le le_rfl,h.take,
      getElem?_set_self (by rw [h.length]; exact hs)]
    rfl

/-- Line feeds before the groups, when the count of characters is at the end of a line. -/
def withLFs (insertLFs : Bool) : Nat → List (List UInt8) → List UInt8
  | _, [] => []
  | count, group::groups =>
    (if insertLFs ∧ count ≠ 0 ∧ count%76 = 0 then [lineFeed] else []) ++ group ++ withLFs insertLFs (count+4) groups

theorem Filled.putIf (h : Filled output out size) (c : Prop) [Decidable c]
    (hs : (out ++ (if c then [lineFeed] else [])).length ≤ size) :
    ∃ output', output.putIf c lineFeed = some output' ∧
      Filled output' (out ++ (if c then [lineFeed] else [])) size := by
  simp only [Output.putIf,decide_eq_true_iff]
  split_ifs at hs ⊢ with hl
  · rw [length_append,length_singleton] at hs
    exact h.put (by omega) lineFeed
  · rw [append_nil]
    exact ⟨output,rfl,h⟩

theorem Filled.putGroup (h : Filled output out size) (c : Prop) [Decidable c] (g : List UInt8)
    (hs : (out ++ (if c then [lineFeed] else []) ++ g).length ≤ size) :
    ∃ output', g.foldl (fun output ch => output.bind (·.put ch)) (output.putIf c lineFeed) =
        some output' ∧ Filled output' (out ++ (if c then [lineFeed] else []) ++ g) size := by
  rw [length_append] at hs
  obtain ⟨f,hf,h⟩ := h.putIf c (by omega)
  rw [hf]
  clear hf
  generalize out ++ (if c then [lineFeed] else []) = w at *
  induction g generalizing f w with
  | nil => exact ⟨f,rfl,by rwa [append_nil]⟩
  | cons ch g ih =>
    rw [length_cons] at hs
    obtain ⟨next,hn,h⟩ := h.put (by omega) ch
    rw [foldl_cons,bind_some,hn,append_cons]
    exact ih next (w ++ [ch]) (by rw [length_append,length_singleton]; omega) h

variable {count : Nat} {groups : List (List UInt8)} {code : Int}

theorem lineFeed_iff (hc : insertLFs → code = count) :
    (insertLFs ∧ code ≠ 0 ∧ code.tmod 76 = 0) ↔ (insertLFs ∧ count ≠ 0 ∧ count%76 = 0) := by
  refine and_congr_right fun hi => ?_
  rw [hc hi,Int.natCast_ne_zero,Int.tmod_eq_emod_of_nonneg (Int.natCast_nonneg _)]
  omega

theorem byteAt_append (b r : List UInt8) (i : Nat) : byteAt (b ++ r) (b.length+i) = byteAt r i := by
  rw [byteAt,byteAt,getD_eq_getElem?_getD,getElem?_append_right (Nat.le_add_right _ _),Nat.add_sub_cancel_left,
    ← getD_eq_getElem?_getD]

private theorem encodeGroups_spec (bf r : List UInt8) (hcd : insertLFs → code = count)
    (h : Filled output out size) (hsz : (out ++ withLFs insertLFs count (fullGroups encodeMap r)).length ≤ size)
    (hcn : insertLFs → count + 4*(r.length/3) < 2^31) :
    ∃ code' output', encodeGroups encodeMap insertLFs (bf ++ r) bf.length code output =
        some (bf.length + 3*(r.length/3), code', output') ∧
      (insertLFs → code' = ↑(count+4*(r.length/3))) ∧
      Filled output' (out ++ withLFs insertLFs count (fullGroups encodeMap r)) size := by
  induction r using fullGroups.induct generalizing bf count code output out with
  | case1 a b c r ih =>
    rw [fullGroups,withLFs,← append_assoc,← append_assoc] at hsz ⊢
    obtain ⟨output₁,hp,h₁⟩ := h.putGroup _ _ (length_append ▸ hsz |> Nat.le_of_add_right_le)
    have hg : (a::b::c::r).length/3 = r.length/3 + 1 := by
      simp only [length_cons]
      omega
    rw [hg] at hcn ⊢
    have hn : insertLFs → (if insertLFs then (code+4).bmod (2^32) else code) = ↑(count+4) := by
      intro hi
      have hlt := hcn hi
      rw [if_pos hi,hcd hi,Int.bmod_eq_of_le (by omega) (by omega)]
      rfl
    obtain ⟨code',output',hr,hcd',h'⟩ := ih (bf ++ [a, b, c]) hn h₁ hsz (fun hi => by
      have hlt := hcn hi
      omega)
    refine ⟨code',output',?_,fun hi => ?_,h'⟩
    · rw [encodeGroups,if_pos (by rw [length_append]; omega)]
      have hby (i : Nat) := byteAt_append bf (a::b::c::r) i
      have ha : byteAt (bf ++ a::b::c::r) bf.length = a := hby 0
      have hb : byteAt (bf ++ a::b::c::r) (bf.length+1) = b := hby 1
      have hc : byteAt (bf ++ a::b::c::r) (bf.length+2) = c := hby 2
      simp only [foldl_cons,foldl_nil] at hp
      simp only [bind_eq_bind,lineFeed_iff hcd,ha,hb,hc,← bind_assoc,hp,bind_some]
      rw [append_assoc,length_append] at hr
      rw [Nat.mul_add,← Nat.add_assoc,Nat.add_right_comm]
      exact hr
    · rw [hcd' hi]
      omega
  | case2 r hs =>
    have hl : r.length < 3 := by
      rcases r with _ | ⟨a,_ | ⟨b,_ | ⟨c,r⟩⟩⟩
      · decide
      · simp
      · simp
      · exact absurd rfl (hs a b c r)
    rw [encodeGroups,if_neg (by rw [length_append]; omega),fullGroups,withLFs,append_nil,Nat.div_eq_of_lt hl]
    · exact ⟨code,output,rfl,hcd,h⟩
    · exact hs

/-- The group after the last full one, if there is one. -/
def lastGroups (encodeMap data : List UInt8) : List (List UInt8) := if data.length%3 = 0 then [] else [lastGroup encodeMap data]

private theorem encodeRest_spec (bf r : List UInt8) (hc : insertLFs → code = count)
    (h : Filled output out size) (hs : (out ++ withLFs insertLFs count (lastGroups encodeMap r)).length ≤ size)
    (hr : r.length < 3) :
    ∃ output', encodeRest encodeMap insertLFs (bf ++ r) bf.length code output = some output' ∧
      Filled output' (out ++ withLFs insertLFs count (lastGroups encodeMap r)) size := by
  have hif : (insertLFs ∧ 0 < code ∧ code.tmod 76 = 0) ↔ (insertLFs ∧ count ≠ 0 ∧ count%76 = 0) := by
    rw [← lineFeed_iff hc]
    refine and_congr_right fun hi => ?_
    rw [hc hi]
    omega
  have hby (i : Nat) := byteAt_append bf r i
  rw [encodeRest]
  rcases r with _ | ⟨a,_ | ⟨b,_ | ⟨c,r⟩⟩⟩
  · rw [append_nil,if_neg (Nat.lt_irrefl _)]
    exact ⟨output,rfl,by simpa [lastGroups,withLFs] using h⟩
  · have ha : byteAt (bf ++ [a]) bf.length = a := hby 0
    have hg : lastGroups encodeMap [a] = [[encodeAt encodeMap (firstSextet a), encodeAt encodeMap (lastOfOne a)]] := rfl
    rw [hg,withLFs,withLFs,append_nil,← append_assoc] at hs ⊢
    obtain ⟨output',hp,h'⟩ := h.putGroup _ _ hs
    refine ⟨output',?_,h'⟩
    simp only [foldl_cons,foldl_nil] at hp
    rw [if_pos (by simp)]
    simp only [bind_eq_bind,hif,ha,if_neg (show ¬ bf.length < (bf ++ [a]).length - 1 by simp),← bind_assoc,hp]
  · have ha : byteAt (bf ++ [a, b]) bf.length = a := hby 0
    have hb : byteAt (bf ++ [a, b]) (bf.length+1) = b := hby 1
    have hg : lastGroups encodeMap [a, b] =
      [[encodeAt encodeMap (firstSextet a), encodeAt encodeMap (secondSextet a b), encodeAt encodeMap (lastOfTwo b)]] := rfl
    rw [hg,withLFs,withLFs,append_nil,← append_assoc] at hs ⊢
    obtain ⟨output',hp,h'⟩ := h.putGroup _ _ hs
    refine ⟨output',?_,h'⟩
    simp only [foldl_cons,foldl_nil] at hp
    rw [if_pos (by simp)]
    simp only [bind_eq_bind,hif,ha,hb,if_pos (show bf.length < (bf ++ [a, b]).length - 1 by simp),← bind_assoc,hp]
  · simp only [length_cons] at hr
    omega

theorem withLFs_false (count : Nat) (groups : List (List UInt8)) : withLFs false count groups = groups.flatten := by
  induction groups generalizing count with
  | nil => rfl
  | cons g groups ih => simp [withLFs,ih]

theorem withLFs_append (count : Nat) (groups groups' : List (List UInt8)) : withLFs insertLFs count (groups ++ groups') =
      withLFs insertLFs count groups ++ withLFs insertLFs (count+4*groups.length) groups' := by
  induction groups generalizing count with
  | nil => rfl
  | cons g groups ih =>
    rw [cons_append,withLFs,ih,withLFs,length_cons,Nat.mul_add,Nat.mul_one,Nat.add_comm (4*groups.length),
      Nat.add_assoc]
    simp only [append_assoc]

private theorem withLFs_line (hc : count%76 ≠ 0 ∧ count%4 = 0)
    (hg : count%76 + 4*groups.length ≤ 76) : withLFs true count groups = groups.flatten := by
  induction groups generalizing count with
  | nil => rfl
  | cons g groups ih =>
    rw [length_cons] at hg
    rw [withLFs,if_neg (by omega),nil_append,flatten_cons]
    cases groups with
    | nil => rfl
    | cons next groups =>
      rw [length_cons] at hg
      rw [ih (by omega) (by rw [length_cons]; omega)]

theorem length_flatten_four (h : ∀ g ∈ groups, g.length = 4) : groups.flatten.length = 4*groups.length := by
  rw [length_flatten,map_congr_left h]
  simp [Nat.mul_comm]

private theorem withLFs_lines (ls : Nat) (groups : List (List UInt8)) (h : ∀ gr ∈ groups, gr.length = 4) :
    withLFs true (76*ls) groups =
      (if ls ≠ 0 ∧ groups ≠ [] then [lineFeed] else []) ++ breakLines groups.flatten := by
  induction hn : groups.length using Nat.strong_induction_on generalizing ls groups with
  | h n ih =>
    subst hn
    have hln := length_flatten_four h
    cases groups with
    | nil =>
      rw [withLFs,if_neg (fun hne => hne.2 rfl),flatten_nil,breakLines,if_pos (by decide)]
      rfl
    | cons gr groups =>
      have hgr := h gr mem_cons_self
      have hf : (if ls ≠ 0 ∧ gr :: groups ≠ [] then [lineFeed] else []) =
          if true ∧ 76*ls ≠ 0 ∧ 76*ls%76 = 0 then [lineFeed] else [] := by
        simp
      rw [hf,withLFs,append_assoc,breakLines]
      congr 1
      rw [hln,length_cons]
      by_cases hl : groups.length < 19
      · -- the rest fits into the line
        rw [if_pos (by omega),withLFs_line (by omega) (by omega),flatten_cons]
      · rw [if_neg (by omega)]
        obtain ⟨l,r,rfl,hln'⟩ : ∃ l r, groups = l ++ r ∧ l.length = 18 :=
          ⟨groups.take 18,groups.drop 18,(take_append_drop 18 groups).symm,by rw [length_take]; omega⟩
        have hl' : gr.length + l.flatten.length = 76 := by
          rw [hgr,length_flatten_four fun g hg => h g (mem_cons_of_mem _ (mem_append_left _ hg)),hln']
        rw [length_append] at hl
        rw [withLFs_append,withLFs_line (by omega) (by omega),hln',
          show 76*ls + 4 + 4*18 = 76*(ls+1) by ring,
          ih r.length (by rw [length_cons,length_append]; omega) (ls+1) r
            (fun g hg => h g (mem_cons_of_mem _ (mem_append_right _ hg))) rfl,
          if_pos ⟨Nat.succ_ne_zero _,ne_nil_of_length_pos (by omega)⟩,flatten_cons,flatten_append,
          ← append_assoc gr l.flatten r.flatten,take_left' (by rw [length_append]; exact hl'),
          drop_left' (by rw [length_append]; exact hl')]
        simp only [append_assoc,singleton_append]

private theorem withLFs_eq_breakLines (h : ∀ g ∈ groups, g.length = 4) :
    withLFs true 0 groups = breakLines groups.flatten := by
  have hl := withLFs_lines 0 groups h
  rwa [if_neg (fun hn => hn.1 rfl),nil_append] at hl

theorem length_breakLines (text : List UInt8) : (breakLines text).length = text.length + (text.length-1)/76 := by
  induction text using breakLines.induct with
  | case1 text hl =>
    rw [breakLines,if_pos hl]
    omega
  | case2 text hl ih =>
    rw [breakLines,if_neg hl,length_append,length_cons,ih,length_take,length_drop]
    omega

theorem length_fullGroups : (fullGroups encodeMap data).length = data.length/3 := by
  fun_induction fullGroups encodeMap data with
  | case1 a b c r ih =>
    simp only [length_cons,ih]
    omega
  | case2 data hs =>
    rcases data with _ | ⟨a,_ | ⟨b,_ | ⟨c,r⟩⟩⟩
    · rfl
    · simp
    · simp
    · exact absurd rfl (hs a b c r)

private theorem length_of_mem_fullGroups : ∀ g ∈ fullGroups encodeMap data, g.length = 4 := by
  fun_induction fullGroups encodeMap data with
  | case1 a b c r ih =>
    intro g hg
    obtain rfl | hg := mem_cons.1 hg
    · rfl
    · exact ih g hg
  | case2 data hs => exact nofun

theorem length_lastGroup : (lastGroup encodeMap data).length = if data.length%3 = 0 then 0 else data.length%3 + 1 := by
  fun_induction lastGroup encodeMap data with
  | case1 a b c r ih =>
    simp only [length_cons,ih,Nat.add_assoc,Nat.reduceAdd,Nat.add_mod_right]
  | case2 a b => rfl
  | case3 a => rfl
  | case4 => rfl

private theorem lastGroup_drop : lastGroup encodeMap (data.drop (3*(data.length/3))) = lastGroup encodeMap data := by
  fun_induction lastGroup encodeMap data with
  | case1 a b c r ih =>
    have hdr : 3*((a::b::c::r).length/3) = 3*(r.length/3) + 3 := by
      simp only [length_cons]
      omega
    rw [hdr]
    exact ih
  | case2 a b => simp [lastGroup]
  | case3 a => simp [lastGroup]
  | case4 => rfl

private theorem lastGroups_drop : lastGroups encodeMap (data.drop (3*(data.length/3))) = lastGroups encodeMap data := by
  have hl : (data.drop (3*(data.length/3))).length%3 = data.length%3 := by
    rw [length_drop]
    omega
  rw [lastGroups,hl,lastGroup_drop,lastGroups]

/-- The equals signs that fill up the last group. -/
def fill (data : List UInt8) : List UInt8 := replicate ((3-data.length%3)%3) equalsSign

def filledGroups (encodeMap data : List UInt8) : List (List UInt8) :=
  fullGroups encodeMap data ++ (lastGroups encodeMap data).map (· ++ fill data)

theorem length_filledGroups : (filledGroups encodeMap data).length = (data.length+2)/3 := by
  rw [filledGroups,length_append,length_fullGroups,length_map,lastGroups]
  split_ifs
  · rw [length_nil]
    omega
  · rw [length_singleton]
    omega

theorem length_of_mem_filledGroups : ∀ g ∈ filledGroups encodeMap data, g.length = 4 := by
  intro g hg
  rw [filledGroups,mem_append,lastGroups] at hg
  obtain hg | hg := hg
  · exact length_of_mem_fullGroups g hg
  · split_ifs at hg with hr
    · cases hg
    · rw [map_singleton,mem_singleton] at hg
      rw [hg,length_append,length_lastGroup,if_neg hr,fill,length_replicate]
      omega

theorem withLFs_filledGroups : withLFs insertLFs 0 (filledGroups encodeMap data) =
      withLFs insertLFs 0 (fullGroups encodeMap data ++ lastGroups encodeMap data) ++ fill data := by
  rw [filledGroups,withLFs_append,withLFs_append,lastGroups,append_assoc]
  split_ifs with hr
  · rw [fill,hr]
    rfl
  · simp [withLFs]

private theorem flatten_lastGroups : (lastGroups encodeMap data).flatten = lastGroup encodeMap data := by
  rw [lastGroups]
  split_ifs with hr
  · exact (length_eq_zero_iff.1 (by rw [length_lastGroup,if_pos hr])).symm
  · simp

theorem plainText_eq (p : EncodePolicy) : plainText encodeMap p data =
      if p = .url then (fullGroups encodeMap data ++ lastGroups encodeMap data).flatten
      else (filledGroups encodeMap data).flatten := by
  rw [plainText,padding]
  split_ifs
  · rw [flatten_append,flatten_lastGroups,append_nil]
  · rw [← withLFs_false 0 (filledGroups encodeMap data),withLFs_filledGroups,withLFs_false,flatten_append,flatten_lastGroups]
    rfl

theorem outLength_eq (p : EncodePolicy) {l : Nat} (hle : l ≤ maxInputBufferSize) :
    outLength p l = (decide (p = .insertLFs ∧ 76 < 4*((l+2)/3)),
      if p = .insertLFs ∧ 76 < 4*((l+2)/3) then 4*((l+2)/3) + (4*((l+2)/3)-1)/76
      else 4*((l+2)/3)) := by
  have hm : maxInputBufferSize = 3179391370 := by decide
  have hln : (l+2)%2^32/3*4%2^32 = 4*((l+2)/3) := by omega
  have hl : (4*((l+2)/3)+(4*((l+2)/3)-1)/76)%2^32 =
      4*((l+2)/3) + (4*((l+2)/3)-1)/76 := by omega
  rw [outLength,hln]
  simp only [hl,Bool.decide_and,Bool.and_eq_true,decide_eq_true_iff]

theorem length_encoded {p : EncodePolicy} (hpl : p ≠ .url) (hln : data.length ≤ maxInputBufferSize) :
    (if p = .insertLFs then breakLines (plainText encodeMap p data) else plainText encodeMap p data).length =
      (outLength p data.length).2 := by
  have hp : (plainText encodeMap p data).length = 4*((data.length+2)/3) := by
    rw [plainText_eq,if_neg hpl,length_flatten_four length_of_mem_filledGroups,length_filledGroups]
  rw [outLength_eq p hln]
  by_cases hlf : p = .insertLFs
  · rw [if_pos hlf,length_breakLines,hp]
    by_cases hl : 76 < 4*((data.length+2)/3)
    · rw [if_pos ⟨hlf,hl⟩]
    · rw [if_neg (fun hb => hl hb.2)]
      omega
  · rw [if_neg hlf,if_neg (fun hb => hlf hb.1),hp]

/-- Both loops: the text without the equals signs. -/
theorem encodeBytes_spec (m : Nat → UInt8)
    (hsz : (withLFs insertLFs 0 (fullGroups encodeMap data ++ lastGroups encodeMap data)).length ≤ size)
    (hc : insertLFs → 4*(data.length/3) < 2^31) :
    ∃ s count output₁ output,
      encodeGroups encodeMap insertLFs data 0 0 ⟨(range size).map m,0⟩ = some (s, count, output₁) ∧
      encodeRest encodeMap insertLFs data s count output₁ = some output ∧
      Filled output (withLFs insertLFs 0 (fullGroups encodeMap data ++ lastGroups encodeMap data)) size := by
  rw [withLFs_append,length_fullGroups] at hsz ⊢
  have hs : Filled ⟨(range size).map m,0⟩ [] size := ⟨by simp,rfl,rfl⟩
  have hf : ([] ++ withLFs insertLFs 0 (fullGroups encodeMap data)).length ≤ size := by
    rw [length_append] at hsz
    rw [nil_append]
    omega
  have hc₀ : insertLFs → 0 + 4*(data.length/3) < 2^31 := by simpa using hc
  obtain ⟨code,output₁,hg,hcd,h₁⟩ := encodeGroups_spec [] data (fun _ => rfl) hs hf hc₀
  have hdt : data = data.take (3*(data.length/3)) ++ data.drop (3*(data.length/3)) := (take_append_drop _ _).symm
  have hl : (data.take (3*(data.length/3))).length = 3*(data.length/3) := by
    rw [length_take]
    omega
  rw [← lastGroups_drop] at hsz
  obtain ⟨output₂,hr,h₂⟩ := encodeRest_spec (data.take (3*(data.length/3))) (data.drop (3*(data.length/3))) hcd h₁
    hsz (by rw [length_drop]; omega)
  rw [lastGroups_drop] at h₂
  rw [← hdt,hl] at hr
  rw [nil_append,length_nil,Nat.zero_add] at hg
  exact ⟨_,code,output₁,output₂,hg,hr,h₂⟩

/-- The encoder writes the text, with line feeds if the policy says so, and fills its vector. -/
theorem encode_eq (m : Nat → UInt8) (p : EncodePolicy) (hln : data.length ≤ maxInputBufferSize)
    (hc : p = .insertLFs → 4*(data.length/3) < 2^31) :
    base64EncodeInternal m data p encodeMap =
      some (if p = .insertLFs then breakLines (plainText encodeMap p data) else plainText encodeMap p data) := by
  by_cases he : data.length = 0
  · rw [base64EncodeInternal,if_pos he,length_eq_zero_iff.1 he]
    cases p <;> simp [plainText,padding,fullGroups,lastGroup,breakLines]
  rw [base64EncodeInternal,if_neg he,if_neg (Nat.not_lt.2 hln),outLength_eq p hln]
  generalize hi : decide (p = .insertLFs ∧ 76 < 4*((data.length+2)/3)) = insertLFs
  generalize hs : (if p = .insertLFs ∧ 76 < 4*((data.length+2)/3) then
    4*((data.length+2)/3) + (4*((data.length+2)/3)-1)/76 else 4*((data.length+2)/3)) = size
  -- the text with the equals signs has the length of the vector
  have hf : (filledGroups encodeMap data).flatten.length = 4*((data.length+2)/3) := by
    rw [length_flatten_four length_of_mem_filledGroups,length_filledGroups]
  have ht : (withLFs insertLFs 0 (filledGroups encodeMap data)).length = size := by
    rw [← hs]
    split_ifs with hlf
    · rw [← hi,decide_eq_true hlf,withLFs_eq_breakLines length_of_mem_filledGroups,length_breakLines,hf]
    · rw [← hi,decide_eq_false hlf,withLFs_false,hf]
  have hw := ht
  rw [withLFs_filledGroups,length_append] at hw
  have hle : (withLFs insertLFs 0 (fullGroups encodeMap data ++ lastGroups encodeMap data)).length ≤ size := by omega
  obtain ⟨s,count,output₁,output,hg,hr,h⟩ := encodeBytes_spec m hle
    (fun hlf => hc (of_decide_eq_true (hi.trans hlf)).1)
  have htk : output.out.take output.didx =
      withLFs insertLFs 0 (fullGroups encodeMap data ++ lastGroups encodeMap data) := by rw [h.didx,h.take]
  have hp : addPadding output = withLFs insertLFs 0 (filledGroups encodeMap data) := by
    rw [addPadding,htk,withLFs_filledGroups,fill,h.length,h.didx,← hw,Nat.add_sub_cancel_left,fill,
      length_replicate]
  dsimp only [bind_eq_bind]
  rw [hg,bind_some,hr,bind_some,plainText_eq,htk,hp]
  cases p with
  | url =>
    rw [if_pos rfl,if_neg (by decide),if_pos rfl,← hi]
    exact congrArg some (withLFs_false 0 _)
  | doNotInsertLFs =>
    rw [if_neg (by decide),if_neg (by decide),if_neg (by decide),← hi]
    exact congrArg some (withLFs_false 0 _)
  | insertLFs =>
    rw [if_neg (by decide),if_pos rfl,if_neg (by decide),← hi]
    by_cases hl : 76 < 4*((data.length+2)/3)
    · rw [decide_eq_true ⟨rfl,hl⟩,withLFs_eq_breakLines length_of_mem_filledGroups]
      rfl
    · rw [decide_eq_false (fun hlf => hl hlf.2),withLFs_false,breakLines,if_pos (by omega)]
      rfl

end WebKit.WTF.Base64
