import Mathlib.Data.List.Basic

/-! URL patterns of user content (UserContentURLPattern.cpp). -/
namespace WebKit.Page
open List

/-- The code units of a string. -/
abbrev Text := List UInt16

/-- The parts of a URL that a pattern is compared with. -/
structure URL where
  (protocol host path : Text)

structure UserContentURLPattern where
  (scheme host path : Text)
  matchSubdomains : Bool

def toASCIILower (c : UInt16) : UInt16 := if 0x41 ≤ c ∧ c ≤ 0x5A then c ||| 0x20 else c

def equalIgnoringASCIICase (a b : Text) : Bool := a.map toASCIILower = b.map toASCIILower

/-- `equalLettersIgnoringASCIICase(scheme, "file")` -/
def isFile (scheme : Text) : Bool := scheme.map (· ||| 0x20) = [0x66,0x69,0x6C,0x65]

/-- The texts before and after the first `://`. -/
def splitScheme : Text → Option (Text × Text)
  | [] => none
  | c::s =>
    if [0x3A,0x2F,0x2F].isPrefixOf (c::s) then some ([], s.drop 2)
    else (splitScheme s).map fun (scheme, rest) => (c::scheme, rest)

/-- The host of a pattern, and whether subdomains of it match. -/
def parseHost (text : Text) : Text × Bool :=
  if text = [0x2A] then ([], true)
  else if [0x2A,0x2E].isPrefixOf text then (text.drop 2, true)
  else (text, false)

def parse (pattern : Text) : Option UserContentURLPattern := do
  let (scheme, rest) ← splitScheme pattern
  guard (rest ≠ [])
  if isFile scheme then return { scheme, host := [], path := rest, matchSubdomains := false }
  guard (0x2F ∈ rest)
  let (host, matchSubdomains) := parseHost (rest.takeWhile (· ≠ 0x2F))
  -- no other star can occur in the host
  guard (0x2A ∉ host)
  return { scheme, host, path := rest.dropWhile (· ≠ 0x2F), matchSubdomains }

def matchesHost (p : UserContentURLPattern) (test : URL) : Bool :=
  if equalIgnoringASCIICase test.host p.host then true
  else if !p.matchSubdomains then false
  else if p.host.length = 0 then true
  else if !(p.host.map toASCIILower).isSuffixOf (test.host.map toASCIILower) then false
  else test.host[test.host.length-p.host.length-1]? = some 0x2E

namespace MatchTester

def eatWildcard (pattern : Text) : Text := pattern.dropWhile (· = 0x2A)

def eatSameChars : Text → Text → Text × Text
  | p::pattern, t::test => if p = 0x2A ∨ p ≠ t then (p::pattern, t::test) else eatSameChars pattern test
  | pattern, test => (pattern, test)

/-- The loop over the rests of the text that are not empty. -/
def anyRest (next : Text → Bool) : Text → Bool
  | [] => false
  | t::test => next (t::test) || anyRest next test

/-- The fuel bounds the depth of the recursion, which shortens the pattern. -/
def test : Nat → Text → Text → Bool
  | 0, _, _ => false
  | fuel+1, pattern, text =>
    match eatSameChars pattern text with
    | (pattern, []) => (eatWildcard pattern).isEmpty
    | ([], _) => false
    | (p::pattern, text) =>
      if p ≠ 0x2A then false else anyRest (test fuel pattern) text || (eatWildcard (p::pattern)).isEmpty

end MatchTester

def matchesPath (path test : Text) : Bool := MatchTester.test (path.length+1) path test

def UserContentURLPattern.matches (p : UserContentURLPattern) (test : URL) : Bool :=
  equalIgnoringASCIICase test.protocol p.scheme && (isFile p.scheme || matchesHost p test) && matchesPath p.path test.path

/-- The text is the pattern with some text in place of each star. -/
def Glob : Text → Text → Prop
  | [], text => text = []
  | c::pattern, text => if c = 0x2A then ∃ s t, text = s ++ t ∧ Glob pattern t else ∃ t, text = c::t ∧ Glob pattern t

/-- The text of the host in a pattern. -/
def hostText (pattern : Text) : Text :=
  ((splitScheme pattern).map fun (_, rest) => rest.takeWhile (· ≠ 0x2F)).getD []

/-- The host is a domain, or a subdomain of it. -/
def InDomain (host domain : Text) : Prop :=
  equalIgnoringASCIICase host domain ∨ ∃ sub rest, host = sub ++ 0x2E::rest ∧ equalIgnoringASCIICase rest domain

/-- The host is that of a pattern's text: a star is any host, and a star and a dot any subdomain. -/
def HostAgrees (text host : Text) : Prop :=
  if text = [0x2A] then True
  else if [0x2A,0x2E].isPrefixOf text then InDomain host (text.drop 2)
  else equalIgnoringASCIICase host text

def Agrees (p : UserContentURLPattern) (text : Text) (url : URL) : Prop :=
  equalIgnoringASCIICase url.protocol p.scheme ∧ (isFile p.scheme ∨ HostAgrees text url.host) ∧ Glob p.path url.path

namespace MatchTester
variable {p t : Text}

private theorem glob_nil_iff (p : Text) : Glob p [] ↔ (eatWildcard p).isEmpty := by
  induction p with
  | nil => simp [Glob,eatWildcard]
  | cons c p ih =>
    rw [Glob,eatWildcard,dropWhile_cons]
    split
    next hc => simpa [hc,eatWildcard,and_assoc] using ih
    next hc => simp [hc]

/-- Eating the same characters keeps whether the rest globs, and stops at a star or a difference. -/
theorem eatSameChars_spec (p t : Text) : (Glob (eatSameChars p t).1 (eatSameChars p t).2 ↔ Glob p t) ∧
    (eatSameChars p t).1.length ≤ p.length ∧
    ∀ {c d ps ts}, eatSameChars p t = (c::ps, d::ts) → c = 0x2A ∨ c ≠ d := by
  fun_induction eatSameChars p t with
  | case1 p ps t ts h => exact ⟨.rfl,Nat.le_refl _,by grind⟩
  | case2 p ps t ts h ih =>
    obtain ⟨hs,rfl⟩ : p ≠ 0x2A ∧ p = t := by simpa using h
    exact ⟨by simp [ih.1,Glob,hs],Nat.le_succ_of_le ih.2.1,ih.2.2⟩
  | case3 => exact ⟨.rfl,Nat.le_refl _,by grind⟩

private theorem anyRest_iff {next : Text → Bool} : anyRest next t ↔ ∃ s r, t = s ++ r ∧ r ≠ [] ∧ next r := by
  induction t with
  | nil => simp [anyRest]
  | cons c t ih =>
    rw [anyRest,Bool.or_eq_true,ih]
    constructor
    · rintro (h | ⟨s,r,rfl,h⟩)
      · exact ⟨[],_,rfl,by simp,h⟩
      · exact ⟨c::s,r,rfl,h⟩
    · rintro ⟨_ | ⟨_,s⟩,r,he,hr,h⟩
      · exact .inl (he ▸ h)
      · exact .inr ⟨s,r,(cons.inj he).2,hr,h⟩

/-- With enough fuel just the texts that the pattern globs pass. -/
theorem test_iff {fuel : Nat} (hf : p.length < fuel) : test fuel p t ↔ Glob p t := by
  induction fuel generalizing p t with
  | zero => omega
  | succ fuel ih =>
    have ⟨hg,hl,hd⟩ := eatSameChars_spec p t
    rw [test,← hg]
    split
    next q he => rw [he,glob_nil_iff]
    next r hr he => simpa [he,Glob] using hr
    next c q r hr he =>
    rw [he] at hl ⊢
    by_cases hc : c = 0x2A
    · rw [if_neg (not_not.2 hc),Bool.or_eq_true,anyRest_iff,← glob_nil_iff,Glob,Glob,if_pos hc,if_pos hc]
      simp only [ih (Nat.lt_of_lt_of_le hl (Nat.le_of_lt_succ hf))]
      constructor
      · rintro (⟨s,r,rfl,-,h⟩ | ⟨s,r',h0,h⟩)
        · exact ⟨s,r,rfl,h⟩
        · exact ⟨r,[],(append_nil r).symm,(append_eq_nil_iff.1 h0.symm).2 ▸ h⟩
      · rintro ⟨s,r,rfl,h⟩
        by_cases hn : r = []
        · exact .inr ⟨[],r,hn.symm,h⟩
        · exact .inl ⟨s,r,rfl,hn,h⟩
    · obtain ⟨d,r,rfl⟩ := exists_cons_of_ne_nil hr
      have hd := (hd he).resolve_left hc
      simp [hc,Glob,hd.symm]

end MatchTester

theorem matchesHost_iff (p : UserContentURLPattern) (url : URL) : matchesHost p url ↔
    equalIgnoringASCIICase url.host p.host ∨ p.matchSubdomains ∧ (p.host = [] ∨ InDomain url.host p.host) := by
  rw [matchesHost]
  split
  next he => simp [he]
  next he =>
  split
  next hs => simp_all
  split
  next h0 => simp_all
  next h0 =>
  have hm : (∃ sub rest, url.host = sub ++ 0x2E::rest ∧ equalIgnoringASCIICase rest p.host) ↔
      (p.host.map toASCIILower).isSuffixOf (url.host.map toASCIILower) ∧
        url.host[url.host.length-p.host.length-1]? = some 0x2E := by
    simp only [equalIgnoringASCIICase,decide_eq_true_eq,isSuffixOf_iff_suffix] at he ⊢
    constructor
    · rintro ⟨sub,rest,h,hr⟩
      have hl := congrArg length hr
      simp only [length_map] at hl
      refine ⟨⟨(sub ++ [0x2E]).map toASCIILower,by simp [h,hr]⟩,?_⟩
      rw [h,length_append,length_cons,show sub.length+(rest.length+1)-p.host.length-1 = sub.length by omega]
      simp
    · rintro ⟨⟨s,h⟩,hd⟩
      have hl := congrArg length h
      simp only [length_map,length_append] at hl
      obtain ⟨hi,hd⟩ := List.getElem?_eq_some_iff.1 hd
      have hn : s ≠ [] := fun hn => he (by rw [← h,hn]; rfl)
      have hp := length_pos_iff.2 hn
      refine ⟨_,_,(hd ▸ drop_eq_getElem_cons hi ▸ take_append_drop ..).symm,?_⟩
      rw [map_drop,← h,drop_left' (by omega)]
  simp_all [InDomain]

private theorem hostAgrees_iff {p : UserContentURLPattern} {text : Text} (url : URL) (hd : text ≠ [0x2A,0x2E])
    (hp : (p.host, p.matchSubdomains) = parseHost text) : matchesHost p url ↔ HostAgrees text url.host := by
  rw [matchesHost_iff,HostAgrees]
  rw [parseHost] at hp
  split_ifs at hp ⊢ with h1 h2
  · simp_all
  · obtain ⟨domain,rfl⟩ := isPrefixOf_iff_prefix.1 h2
    simp_all [InDomain]
  · simp_all

private theorem glob_filter (p : Text) : Glob p (p.filter (· != 0x2A)) := by
  induction p with
  | nil => rfl
  | cons c p ih =>
    rw [Glob,filter_cons]
    split_ifs <;> simp_all
    exact ⟨[],_,rfl,ih⟩

theorem not_hostAgrees : ¬ HostAgrees [0x2A,0x2E] [0x61] := by
  rintro (h | ⟨sub,rest,h,-⟩)
  · cases h
  · cases sub <;> simp at h

private theorem parse_spec {pattern : Text} {p : UserContentURLPattern} (h : parse pattern = some p)
    (hf : ¬ isFile p.scheme) : (p.host, p.matchSubdomains) = parseHost (hostText pattern) := by
  obtain ⟨⟨scheme,rest⟩,hs,h⟩ := Option.bind_eq_some_iff.1 h
  obtain ⟨-,-,h⟩ := Option.bind_eq_some_iff.1 h
  have ht : hostText pattern = rest.takeWhile (· ≠ 0x2F) := by simp [hostText,hs]
  rw [ht]
  by_cases hi : isFile scheme
  · obtain rfl := Option.some.inj ((if_pos hi).symm.trans h)
    exact absurd hi hf
  · obtain ⟨-,-,h⟩ := Option.bind_eq_some_iff.1 ((if_neg hi).symm.trans h)
    obtain ⟨-,-,h⟩ := Option.bind_eq_some_iff.1 h
    obtain rfl := Option.some.inj h
    rfl

/-- The matcher globs, and a pattern matches the URLs that agree with it, unless its host is a star and a dot: then it
matches every host. -/
theorem matches_iff_agrees (pattern : Text) :
    ((∀ path test, matchesPath path test ↔ Glob path test) ∧
      ∀ p, parse pattern = some p → ∀ url, p.matches url ↔ Agrees p (hostText pattern) url) ↔
    ∀ p, parse pattern = some p → isFile p.scheme ∨ hostText pattern ≠ [0x2A,0x2E] := by
  have hg : ∀ path test, matchesPath path test ↔ Glob path test := fun _ _ => MatchTester.test_iff (Nat.lt_succ_self _)
  constructor
  · rintro ⟨-,h⟩ p hp
    by_contra hn
    obtain ⟨hf,hd⟩ := not_or.1 hn
    have hs := parse_spec hp hf
    rw [not_not.1 hd] at hs h
    obtain ⟨hh,hs⟩ := Prod.mk.inj hs
    have ha := (h p hp ⟨p.scheme,[0x61],p.path.filter (· != 0x2A)⟩).1 (by
      simp [UserContentURLPattern.matches,hg,glob_filter,matchesHost_iff,hh,hs,equalIgnoringASCIICase])
    simp [Agrees,hf,not_hostAgrees] at ha
  · intro h
    refine ⟨hg,fun p hp url => ?_⟩
    rw [UserContentURLPattern.matches,Agrees,Bool.and_eq_true,Bool.and_eq_true,Bool.or_eq_true,hg,and_assoc]
    by_cases hf : isFile p.scheme
    · simp [hf]
    · rw [hostAgrees_iff url ((h p hp).resolve_left hf) (parse_spec hp hf)]

/-- The pattern `h://*./` matches `h://a/`, whose host is not a subdomain of anything empty. -/
theorem matches_star_dot : ∃ p, parse [0x68,0x3A,0x2F,0x2F,0x2A,0x2E,0x2F] = some p ∧
    p.matches ⟨[0x68],[0x61],[0x2F]⟩ ∧
      ¬ Agrees p (hostText [0x68,0x3A,0x2F,0x2F,0x2A,0x2E,0x2F]) ⟨[0x68],[0x61],[0x2F]⟩ := by
  refine ⟨_,rfl,rfl,fun ha => ?_⟩
  exact ha.2.1.elim (by decide) not_hostAgrees

end WebKit.Page
