import WebKit.WTF.RedBlackFixup
import WebKit.WTF.RedBlackSearch

/-! Removal from a red-black tree. -/
namespace WebKit.WTF.RedBlackTree
open Base.Tree RedBlackTree Option

open Base (Side Color Holds)
open Base.Tree (Frame join plug before after Balanced PathBalanced balanced_join_red balanced_join_black)

variable {κ : Type} {tree : RedBlackTree κ} {side : Side} {color : Color} {X left right whole : Tree (Nat × κ)}
  {path : List (Frame (Nat × κ))} {rest : Multiset (Nat × Node κ)} {y z : Nat × κ} {height fuel : Nat}

/-- Taking a node with at most one child out of the tree and repairing it. -/
theorem unlink_spec (h : Represents tree (plug (join side color .nil y X) path) rest)
    (hb : (plug (join side color .nil y X) path).color = .black)
    (hbl : (plug (join side color .nil y X) path).Balanced height) (hf : 2*path.length + 1 < fuel) :
    ∃ tree' whole', (if (tree.unlink y.1 (ptr X)).color y.1 = .black then
        (tree.unlink y.1 (ptr X)).removeFixup fuel (ptr X) (top path) else some (tree.unlink y.1 (ptr X))) = some tree' ∧
      Repaired ({(y.1, Node.of side none (ptr X) (top path) color y.2)} + rest) (before path ++ X.inorder ++ after path)
        whole' tree' := by
  have h' := h.unlink
  have hc : (tree.unlink y.1 (ptr X)).color y.1 = color := by
    rw [RedBlackTree.color,(h'.holds.move (show {(y.1, _)} + (cells none (plug X path)+rest) = _ by abel)).read,Node.color_of]
  rw [hc]
  obtain ⟨b,hj,hp,-⟩ := hbl.split hb
  cases color with
  | red =>
    obtain ⟨⟨-,hcx⟩,-,hX⟩ := balanced_join_red.1 hj
    obtain ⟨hc',hbl'⟩ := hp.plug hX (.inl hcx)
    exact ⟨_,plug X path,if_neg (by decide),h',inorder_plug X path,hc',hbl'⟩
  | black =>
    cases b with
    | zero => cases side <;> obtain ⟨_,hz,_⟩ := hj <;> cases hz
    | succ b =>
      obtain ⟨-,hX⟩ := balanced_join_black.1 hj
      have hn : Nearly b X := by
        cases hcx : X.color with
        | black => exact .black hcx hX
        | red =>
          obtain ⟨n,e,f,rfl,-,hnr,hfr⟩ := exists_red hX hcx .left
          exact .red .left e hnr hfr
      exact Removing.removeFixup ⟨h',inorder_plug X path,hn,hp⟩ hf

private theorem remove_single (h : Represents tree (plug (join side color .nil z X) path) rest)
    (hb : (plug (join side color .nil z X) path).color = .black)
    (hbl : (plug (join side color .nil z X) path).Balanced height) (hf : 2*path.length + 1 < fuel) :
    ∃ tree' whole', tree.remove fuel z.1 = some tree' ∧
      Repaired rest (before path ++ X.inorder ++ after path) whole' tree' := by
  obtain ⟨tree',whole',hu,hrp⟩ := unlink_spec h hb hbl hf
  have hr := h.read
  have hc : tree.left z.1 = none ∨ tree.right z.1 = none := by
    rw [left,right,hr]
    cases side with
    | left => exact .inl rfl
    | right => exact .inr rfl
  have hx : (if tree.left z.1 = none then tree.right z.1 else tree.left z.1) = ptr X := by
    rw [left,right,hr]
    cases side with
    | left => exact if_pos rfl
    | right =>
      by_cases hn : ptr X = none
      · exact (if_pos hn).trans hn.symm
      · exact if_neg hn
  have hp : tree.parent z.1 = top path := by rw [parent,hr,Node.parent_of]
  refine ⟨tree',whole',?_,hrp.represents.drop,hrp.inorder,hrp.color,hrp.balanced⟩
  rw [remove,if_pos hc]
  dsimp only [bind_eq_bind,pure_def,bind_some]
  rw [hx,hp,if_neg (fun hne => hne rfl)]
  exact hu

/-- Another entry in the place of one changes neither the balance nor the order. -/
theorem replace_entry (hb : (plug (.node color left z right) path).color = .black)
    (hbl : (plug (.node color left z right) path).Balanced height) (y : Nat × κ) :
    (plug (.node color left y right) path).color = .black ∧ ∃ height', (plug (.node color left y right) path).Balanced height' := by
  obtain ⟨b,hn,hp,hc⟩ := hbl.split hb
  refine hp.plug ?_ hc
  cases color with
  | red => exact hn
  | black => exact hn

/-- A node with two children is replaced by its successor. -/
theorem remove_double (h : Represents tree (plug (.node color left z right) path) rest)
    (hb : (plug (.node color left z right) path).color = .black)
    (hbl : (plug (.node color left z right) path).Balanced height) (hlf : ptr left ≠ none) {a : Nat}
    (hri : ptr right = some a) (hf : 2*(plug (.node color left z right) path).inorder.length + 1 < fuel) :
    ∃ tree' whole', tree.remove fuel z.1 = some tree' ∧
      Repaired rest (before path ++ left.inorder ++ right.inorder ++ after path) whole' tree' := by
  have hle := length_inorder_plug (.node color left z right) path
  rw [inorder,List.length_append,List.length_cons] at hle
  have hdw : Represents tree (plug right (⟨color,z,.right,left⟩ :: path)) rest := h
  obtain ⟨cy,y,X,b,-,rfl,hbf⟩ := treeMinimum_spec hdw hri (show _ < fuel by omega)
  have hi : (plug (.node cy .nil y X) b).inorder = y :: (X.inorder ++ after b) := by
    rw [inorder_plug,hbf]
    simp [inorder]
  have hs : tree.successor fuel z.1 = some (some y.1) := by
    rw [successor_spec h (by omega),hi]
    rfl
  have hne : y.1 ≠ z.1 := by
    have hn := h.nodup
    rw [inorder_plug,inorder,hi] at hn
    intro he
    simp [he,List.nodup_append] at hn
  -- the path to the successor goes through the node
  have hy : Represents tree (plug (join .left cy .nil y X) (b ++ ⟨color,z,.right,left⟩ :: path)) rest := by
    rw [plug_append]
    exact hdw
  have hw : plug (join .left cy .nil y X) (b ++ ⟨color,z,.right,left⟩ :: path) =
      plug (.node color left z (plug (.node cy .nil y X) b)) path := plug_append _ _ _
  have hln := length_inorder_plug (join .left cy .nil y X) (b ++ ⟨color,z,.right,left⟩ :: path)
  have hrd := h.read_node
  have hr := hy.read
  rw [← hw] at hb hbl hf
  obtain ⟨tree₁,whole₁,hu,hrp⟩ := unlink_spec hy hb hbl (show _ < fuel by omega)
  rw [before_append,after_append,hbf] at hrp
  have hi₁ : whole₁.inorder = (before path ++ left.inorder) ++ z :: (X.inorder ++ after b ++ after path) := by
    rw [hrp.inorder]
    simp [before,after,Frame.before,Frame.after]
  obtain ⟨color₁,left₁,right₁,path₁,rfl⟩ := exists_plug (show z ∈ whole₁.inorder by rw [hi₁]; simp)
  obtain ⟨hlf₁,hri₁⟩ := inorder_after hrp.represents hi₁
  obtain ⟨height₁,hbl₁⟩ := hrp.balanced
  obtain ⟨hb₂,hbl₂⟩ := replace_entry hrp.color hbl₁ y
  refine ⟨tree₁.splice y.1 z.1,_,?_,(hrp.represents.splice Node.key_of).drop,?_,hb₂,hbl₂⟩
  · have ht : ¬ (tree.left z.1 = none ∨ tree.right z.1 = none) := by
      rw [RedBlackTree.left,RedBlackTree.right,hrd,hri]
      exact fun ho => ho.elim hlf (by simp)
    have hl : tree.left y.1 = none := by
      rw [RedBlackTree.left,hr]
      rfl
    have hrg : tree.right y.1 = ptr X := by
      rw [right,hr]
      rfl
    have hp : tree.parent y.1 = top (b ++ ⟨color,z,.right,left⟩ :: path) := by
      rw [parent,hr,Node.parent_of]
    rw [remove,if_neg ht]
    dsimp only [bind_eq_bind]
    rw [hs,bind_some,bind_some,if_pos hl,hrg,hp,if_pos hne]
    split_ifs at hu ⊢ with hc
    · rw [hu]
      rfl
    · cases hu
      rfl
  · rw [inorder_plug,inorder,hi]
    calc before path₁ ++ (left₁.inorder ++ y::right₁.inorder) ++ after path₁
        = (before path₁ ++ left₁.inorder) ++ y :: (right₁.inorder ++ after path₁) := by simp
      _ = (before path ++ left.inorder) ++ y :: (X.inorder ++ after b ++ after path) := by rw [← hlf₁,← hri₁]
      _ = before path ++ left.inorder ++ (y :: (X.inorder ++ after b)) ++ after path := by simp

/-- Removing a node of the tree. -/
theorem remove_spec (h : Represents tree whole rest) {l l' : List (Nat × κ)} (hi : whole.inorder = l ++ z::l')
    (hb : whole.color = .black) (hbl : whole.Balanced height) (hf : 2*whole.inorder.length + 1 < fuel) :
    ∃ tree' whole', tree.remove fuel z.1 = some tree' ∧ Repaired rest (l ++ l') whole' tree' := by
  obtain ⟨color,left,right,path,rfl⟩ := exists_plug (show z ∈ whole.inorder by rw [hi]; simp)
  obtain ⟨rfl,rfl⟩ := inorder_after h hi
  have hl := length_inorder_plug (.node color left z right) path
  cases left with
  | nil =>
    obtain ⟨tree',whole',hr,hrp⟩ :=
      remove_single (show Represents tree (plug (join .left color .nil z right) path) rest from h) hb hbl
        (show _ < fuel by omega)
    refine ⟨tree',whole',hr,?_⟩
    simpa [inorder] using hrp
  | node cl ll el rl =>
    cases right with
    | nil =>
      obtain ⟨tree',whole',hr,hrp⟩ :=
        remove_single (show Represents tree (plug (join .right color .nil z (.node cl ll el rl)) path) rest from h) hb hbl
          (show _ < fuel by omega)
      refine ⟨tree',whole',hr,?_⟩
      simpa [inorder] using hrp
    | node cr lr er rr =>
      obtain ⟨tree',whole',hr,hrp⟩ := remove_double h hb hbl (by simp) rfl hf
      refine ⟨tree',whole',hr,?_⟩
      simpa using hrp

end WebKit.WTF.RedBlackTree
