import WebKit.WTF.URLParser.IPv6Host

/-! The parser of IPv6 hosts does the same as on the text without the ignored code points. -/
namespace WebKit.WTF.URLParser
open Option List

def plain : Nat → Bool := fun _ => false

@[simp] theorem advance_plain {c : Nat} {rest : List Nat} : advance plain (c::rest) = rest := by
  cases rest <;> rfl

variable (ignored : Nat → Bool)

def kept (iterator : List Nat) : List Nat := iterator.filter (fun c => !ignored c)

/-- The iterator is at its end or at a code point that is not ignored. -/
def Settled (iterator : List Nat) : Prop := ∀ c ∈ iterator.head?, ignored c = false

variable {ignored} {c : Nat} {rest it : List Nat}

theorem Settled.kept_cons (h : Settled ignored (c::rest)) : kept ignored (c::rest) = c :: kept ignored rest :=
  filter_cons_of_pos (by rw [h c rfl]; rfl)

theorem Settled.head?_kept (h : Settled ignored it) : (kept ignored it).head? = it.head? := by
  cases it with
  | nil => rfl
  | cons c rest =>
    rw [h.kept_cons]
    rfl

theorem Settled.kept_eq_nil (h : Settled ignored it) : kept ignored it = [] ↔ it = [] := by
  cases it with
  | nil => exact Iff.rfl
  | cons c rest =>
    rw [h.kept_cons]
    exact iff_of_false (cons_ne_nil _ _) (cons_ne_nil _ _)

theorem settled_advance : Settled ignored (advance ignored it) := by
  intro c hc
  have hn := head?_dropWhile_not ignored it.tail
  rw [show it.tail.dropWhile ignored = advance ignored it from rfl,mem_def.1 hc] at hn
  simpa using hn

theorem kept_advance : kept ignored (advance ignored (c::rest)) = kept ignored rest := by
  rw [advance,tail_cons]
  induction rest with
  | nil => rfl
  | cons d rest ih =>
    by_cases hd : ignored d
    · rw [dropWhile_cons_of_pos hd,ih,kept,kept,filter_cons_of_neg (by simp [hd])]
    · rw [dropWhile_cons_of_neg hd]

theorem Settled.advance_kept (h : Settled ignored (c::rest)) :
    advance plain (kept ignored (c::rest)) = kept ignored (advance ignored (c::rest)) := by
  rw [h.kept_cons,advance_plain,kept_advance]

private theorem pieceInsideIPv6Loop_kept (p : Nat) (zs : Bool) (h : Settled ignored it) :
    pieceInsideIPv6Loop plain p zs (kept ignored it) =
      (pieceInsideIPv6Loop ignored p zs it).map (fun r => (r.1, r.2.1, kept ignored r.2.2)) ∧
    ∀ r ∈ pieceInsideIPv6Loop ignored p zs it, Settled ignored r.2.2 := by
  fun_induction pieceInsideIPv6Loop ignored p zs it with
  | case1 p zs =>
    refine ⟨by rw [kept,filter_nil,pieceInsideIPv6Loop]; rfl,fun r hr => ?_⟩
    rw [← some.inj hr]
    exact nofun
  | case2 p zs c rest hdg =>
    rw [h.kept_cons,pieceInsideIPv6Loop,if_pos hdg]
    exact ⟨rfl,nofun⟩
  | case3 p zs c rest hdg hz =>
    rw [h.kept_cons,pieceInsideIPv6Loop,if_neg hdg,if_pos hz]
    exact ⟨rfl,nofun⟩
  | case4 p zs c rest hdg hz hl =>
    rw [h.kept_cons,pieceInsideIPv6Loop,if_neg hdg,if_neg hz,if_pos hl]
    exact ⟨rfl,nofun⟩
  | case5 p zs c rest hdg hz hl hdt =>
    rw [h.kept_cons,pieceInsideIPv6Loop,if_neg hdg,if_neg hz,if_neg hl,← h.kept_cons,h.advance_kept,
      settled_advance.head?_kept,if_pos hdt]
    refine ⟨rfl,fun r hr => ?_⟩
    rw [← some.inj hr]
    exact settled_advance
  | case6 p zs c rest hdg hz hl hdt ih =>
    rw [h.kept_cons,pieceInsideIPv6Loop,if_neg hdg,if_neg hz,if_neg hl,← h.kept_cons,h.advance_kept,
      settled_advance.head?_kept,if_neg hdt]
    exact ih settled_advance

private theorem parseIPv4PieceInsideIPv6_kept (h : Settled ignored it) : parseIPv4PieceInsideIPv6 plain (kept ignored it) =
      (parseIPv4PieceInsideIPv6 ignored it).map (fun r => (r.1, kept ignored r.2)) ∧
    ∀ r ∈ parseIPv4PieceInsideIPv6 ignored it, Settled ignored r.2 := by
  obtain ⟨he,hs⟩ := pieceInsideIPv6Loop_kept 0 false h
  simp only [parseIPv4PieceInsideIPv6,h.kept_eq_nil]
  split_ifs
  · exact ⟨rfl,nofun⟩
  · rw [he]
    cases hl : pieceInsideIPv6Loop ignored 0 false it with
    | none => exact ⟨rfl,nofun⟩
    | some r =>
      dsimp only [map_some,bind_eq_bind,bind_some]
      split_ifs
      · exact ⟨rfl,nofun⟩
      · refine ⟨rfl,fun r hr => ?_⟩
        rw [← some.inj hr]
        exact hs _ hl

private theorem addressInsideIPv6Loop_kept (rs ad : Nat) (h : Settled ignored it) :
    addressInsideIPv6Loop plain rs ad (kept ignored it) = addressInsideIPv6Loop ignored rs ad it := by
  induction rs generalizing ad it with
  | zero =>
    obtain ⟨he,hs⟩ := parseIPv4PieceInsideIPv6_kept h
    rw [addressInsideIPv6Loop,addressInsideIPv6Loop,he]
    cases hp : parseIPv4PieceInsideIPv6 ignored it with
    | none => rfl
    | some r =>
      dsimp only [map_some,bind_eq_bind,bind_some]
      simp only [(hs _ hp).kept_eq_nil]
  | succ rs ih =>
    obtain ⟨he,hs⟩ := parseIPv4PieceInsideIPv6_kept h
    rw [addressInsideIPv6Loop,addressInsideIPv6Loop,he]
    cases hp : parseIPv4PieceInsideIPv6 ignored it with
    | none => rfl
    | some r =>
      obtain ⟨p,after⟩ := r
      have ha : Settled ignored after := hs _ hp
      dsimp only [map_some,bind_eq_bind,bind_some]
      rw [ha.head?_kept]
      split_ifs with hdt
      · cases after with
        | nil => cases hdt
        | cons d after =>
          rw [ha.advance_kept]
          exact ih _ settled_advance
      · rfl

private theorem hexDigitsLoop_kept (l v : Nat) (h : Settled ignored it) :
    hexDigitsLoop plain l v (kept ignored it) =
      ((hexDigitsLoop ignored l v it).1, kept ignored (hexDigitsLoop ignored l v it).2) ∧
    Settled ignored (hexDigitsLoop ignored l v it).2 := by
  fun_induction hexDigitsLoop ignored l v it with
  | case1 v c => exact ⟨by rw [hexDigitsLoop],h⟩
  | case2 l v => exact ⟨by rw [kept,filter_nil,hexDigitsLoop],h⟩
  | case3 l v d rest hh ih =>
    rw [h.kept_cons,hexDigitsLoop,if_pos hh,← h.kept_cons,h.advance_kept]
    exact ih settled_advance
  | case4 l v d rest hh =>
    rw [h.kept_cons,hexDigitsLoop,if_neg hh]
    exact ⟨rfl,h⟩

private theorem piecesLoop_kept (s : Pieces) (h : Settled ignored it) :
    piecesLoop plain s (kept ignored it) = piecesLoop ignored s it := by
  induction hn : it.length using Nat.strong_induction_on generalizing s it with
  | _ n ih =>
  cases it with
  | nil => rw [kept,filter_nil,piecesLoop,piecesLoop]
  | cons d rest =>
    have hq := addressInsideIPv6Loop_kept 3 0 h
    have hh := (hexDigitsLoop_kept 4 0 h).1
    have hs := (hexDigitsLoop_kept 4 0 h).2
    have hl := length_hexDigitsLoop_le ignored 4 0 (d::rest)
    rw [h.kept_cons] at hq hh ⊢
    rw [piecesLoop_cons,piecesLoop_cons,← h.kept_cons,h.advance_kept,ih _ (hn ▸ length_advance_lt ignored) _ settled_advance rfl,
      h.kept_cons,parseIPv4AddressInsideIPv6,parseIPv4AddressInsideIPv6,hq,hh]
    generalize hexDigitsLoop ignored 4 0 (d::rest) = r at hs hl ⊢
    obtain ⟨v,_ | ⟨e,a⟩⟩ := r
    · rfl
    · have ha : Settled ignored (e::a) := hs
      rw [ha.kept_cons]
      dsimp only
      rw [← ha.kept_cons,ha.advance_kept,
        ih _ (hn ▸ (length_advance_lt ignored).trans_le hl) _ settled_advance rfl]

/-- The parser sees only the code points that are not ignored. -/
theorem parseIPv6With_kept (b : Nat) (ho : List Nat) :
    parseIPv6With ignored (b::ho) = parseIPv6With plain (b :: kept ignored ho) := by
  have hs : Settled ignored (advance ignored (b::ho)) := settled_advance
  have hk : kept ignored (advance ignored (b::ho)) = kept ignored ho := kept_advance
  rw [parseIPv6With,parseIPv6With,advance_plain,← hk]
  generalize advance ignored (b::ho) = c at hs ⊢
  rw [startPieces,startPieces,hs.head?_kept]
  simp only [hs.kept_eq_nil]
  cases c with
  | nil => rfl
  | cons d rest =>
    rw [hs.advance_kept,settled_advance.head?_kept]
    by_cases hc : (d::rest).head? = some colon
    · by_cases hsc : (advance ignored (d::rest)).head? = some colon
      · obtain ⟨a,ha⟩ := head?_eq_some_iff.1 hsc
        have hst : Settled ignored (colon::a) := ha ▸ settled_advance
        simp only [hc,hsc,if_true,reduceCtorEq,if_false,bind_eq_bind,bind_some]
        rw [ha,hst.advance_kept,piecesLoop_kept _ settled_advance]
      · simp only [hc,hsc,if_true,if_false,reduceCtorEq]
        rfl
    · simp only [hc,if_false,reduceCtorEq,bind_eq_bind,bind_some]
      rw [piecesLoop_kept _ hs]

end WebKit.WTF.URLParser
