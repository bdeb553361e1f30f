import WebKit.WTF.RedBlackMemory

/-! Repairing a red-black tree after a node was taken out. -/
namespace WebKit.WTF.RedBlackTree
open Base.Tree RedBlackTree Option

open Base (Side Color Holds loopM loopM_spec)
open Base.Tree (Frame join plug Balanced PathBalanced BelowBlack balanced_join_red balanced_join_black)

variable {κ : Type} {tree tree' : RedBlackTree κ} {side : Side} {color : Color} {shape : Tree (Nat × κ)}
  {path : List (Frame (Nat × κ))} {rest : Multiset (Nat × Node κ)} {p w : Nat × κ} {X W W₁ W₂ : Tree (Nat × κ)}
  {es : List (Nat × κ)} {height : Nat}

/-- Balanced but for a red top that may have red children. -/
inductive Nearly (height : Nat) : Tree (Nat × κ) → Prop where
  | black {shape : Tree (Nat × κ)} (hcolor : shape.color = .black) (h : shape.Balanced height) : Nearly height shape
  | red {near far : Tree (Nat × κ)} (side : Side) (entry : Nat × κ) (hnear : near.Balanced height)
      (hfar : far.Balanced height) : Nearly height (join side .red near entry far)

theorem Nearly.balanced (h : Nearly height shape) (hb : shape.color = .black) : shape.Balanced height := by
  cases h with
  | black hc hbl => exact hbl
  | red side e hn hf =>
    rw [color_join] at hb
    cases hb

/-- The loop's invariant: a black node is missing on the ways down through the subtree. -/
structure Removing (rest : Multiset (Nat × Node κ)) (entries : List (Nat × κ)) (shape : Tree (Nat × κ))
    (path : List (Frame (Nat × κ))) (height : Nat) (tree : RedBlackTree κ) : Prop where
  represents : Represents tree (plug shape path) rest
  inorder : (plug shape path).inorder = entries
  nearly : Nearly height shape
  path : PathBalanced path (height+1)

structure Repaired (rest : Multiset (Nat × Node κ)) (entries : List (Nat × κ)) (whole : Tree (Nat × κ)) (tree : RedBlackTree κ) :
    Prop where
  represents : Represents tree whole rest
  inorder : whole.inorder = entries
  color : whole.color = .black
  balanced : ∃ height, whole.Balanced height

private theorem removeRedSibling_spec
    (h : Represents tree (plug X (⟨.black,p,side,join side .red W₁ w W₂⟩ :: path)) rest) {b : Nat} (hb : ptr W₁ = some b) :
    ∃ tree', tree.removeRedSibling side p.1 w.1 = some (tree', b) ∧
      Represents tree' (plug X (⟨.red,p,side,W₁⟩ :: ⟨.black,w,side,W₂⟩ :: path)) rest := by
  have hcl : tree.color w.1 = .red := by rw [color,h.up.down_other.read,Node.color_of]
  have h₁ := (h.up.down_other.setColor .black).up_other
  obtain ⟨tree',hr,h₂⟩ := (h₁.setColor .red).rotate
  have hc : tree'.child side.other p.1 = some b := by
    rw [child,h₂.down.read,Node.child_other_of,hb]
  refine ⟨tree',?_,h₂.down.down⟩
  rw [removeRedSibling,if_pos hcl]
  dsimp only [bind_eq_bind]
  rw [hr,bind_some,hc]
  rfl

section
variable (h : Represents tree (plug X (⟨color,p,side,join side .black W₁ w W₂⟩ :: path)) rest)
include h

private theorem removeRedSibling_black : tree.removeRedSibling side p.1 w.1 = some (tree, w.1) := by
  have hc : tree.color w.1 = .black := by rw [RedBlackTree.color,h.up.down_other.read,Node.color_of]
  rw [removeRedSibling,hc,if_neg (by decide)]

theorem isBlack_children :
    (tree.isBlack (tree.child side w.1) ↔ W₁.color = .black) ∧
      (tree.isBlack (tree.child side.other w.1) ↔ W₂.color = .black) := by
  rw [child,child,h.up.down_other.read,Node.child_of,Node.child_other_of]
  exact ⟨h.up.down_other.down.isBlack,h.up.down_other.down_other.isBlack⟩

end

private theorem removeNearRed_spec {U V : Tree (Nat × κ)} {v : Nat × κ}
    (h : Represents tree (plug X (⟨color,p,side,join side .black (join side .red U v V) w W₂⟩ :: path)) rest)
    (hb : W₂.color = .black) :
    ∃ tree', tree.removeNearRed side p.1 w.1 = some (tree', v.1) ∧
      Represents tree' (plug X (⟨color,p,side,join side .black U v (join side .red V w W₂)⟩ :: path)) rest := by
  have hn : tree.child side w.1 = some v.1 := by rw [child,h.up.down_other.read,Node.child_of,ptr_join]
  have h₁ := (h.up.down_other.down.setColor .black).up.setColor .red
  rw [← join_other,← join_other side .black] at h₁
  obtain ⟨tree',hr,h₂⟩ := h₁.rotate
  rw [join_other,join_other] at h₂
  have hc : tree'.child side.other p.1 = some v.1 := by
    rw [child,h₂.up_other.read,Node.child_other_of,ptr_join]
  refine ⟨tree',?_,h₂.up_other.down⟩
  rw [removeNearRed,if_pos ((isBlack_children h).2.2 hb)]
  dsimp only [bind_eq_bind]
  rw [hn,bind_some,hr,bind_some,hc]
  rfl

private theorem removeNearRed_far (h : Represents tree (plug X (⟨color,p,side,join side .black W₁ w W₂⟩ :: path)) rest)
    (hr : W₂.color ≠ .black) : tree.removeNearRed side p.1 w.1 = some (tree, w.1) := by
  rw [removeNearRed,if_neg (fun hf => hr ((isBlack_children h).2.1 hf))]

private theorem removeFarRed_spec {D E : Tree (Nat × κ)} {d : Nat × κ}
    (h : Represents tree (plug X (⟨color,p,side,join side .black W₁ w (join side .red D d E)⟩ :: path)) rest) :
    ∃ tree', tree.removeFarRed side p.1 w.1 = some tree' ∧
      Represents tree' (plug (join side color (join side .black X p W₁) w (join side .black D d E)) path) rest := by
  have hc : tree.color p.1 = color := by rw [RedBlackTree.color,h.read_frame,Node.color_of]
  have h₁ := (h.up.down_other.setColor color).up_other.setColor .black
  have hf : ((tree.setColor w.1 color).setColor p.1 .black).child side.other w.1 = some d.1 := by
    rw [child,h₁.down_other.read,Node.child_other_of,ptr_join]
  have h₂ := (h₁.down_other.down_other.setColor .black).up_other.up_other
  obtain ⟨tree',hr,h₃⟩ := h₂.rotate
  refine ⟨tree',?_,h₃⟩
  rw [removeFarRed,hc,hf]
  exact hr

/-- After the first case the sibling is black. -/
theorem Removing.redSibling (h : Removing rest es X (⟨color,p,side,W⟩ :: path) height tree) {b : Nat}
    (hb : ptr W = some b) :
    ∃ tree' color' W₁ w W₂ path', tree.removeRedSibling side p.1 b = some (tree', w.1) ∧
      Removing rest es X (⟨color',p,side,join side .black W₁ w W₂⟩ :: path') height tree' ∧
      (path'.length = path.length ∨ color' = .red ∧ path'.length = path.length + 1) := by
  obtain ⟨hW,hp⟩ := h.path
  obtain ⟨c,W₁,w,W₂,rfl⟩ := Balanced.exists_join hW side
  rw [ptr_join] at hb
  cases hb
  cases c with
  | black => exact ⟨tree,color,W₁,w,W₂,path,removeRedSibling_black h.represents,h,.inl rfl⟩
  | red =>
    obtain ⟨⟨hc₁,hc₂⟩,hW₁,hW₂⟩ := balanced_join_red.1 hW
    cases color with
    | red =>
      rw [color_join] at hp
      cases hp.1
    | black =>
      obtain ⟨V₁,v,V₂,rfl,hV₁,hV₂⟩ := hW₁.exists_black hc₁ side
      obtain ⟨tree',hr,h'⟩ := removeRedSibling_spec h.represents ptr_join
      refine ⟨tree',.red,V₁,v,V₂,_,hr,⟨h',?_,h.nearly,?_⟩,.inr ⟨rfl,rfl⟩⟩
      · rw [← h.inorder,plug,plug,plug]
        refine inorder_plug_congr ?_ _
        simp only [inorder_join,Side.arrange_arrange]
      · exact ⟨hW₁,color_join,⟨_,_,rfl,rfl⟩,hW₂,hp⟩

section
variable (h : Removing rest es X (⟨color,p,side,join side .black W₁ w W₂⟩ :: path) height tree)
include h

/-- The second case: the sibling becomes red, and the missing black node is above. -/
theorem Removing.recolor
    (hX : X.color = .black) (hW₁ : W₁.color = .black) (hW₂ : W₂.color = .black) :
    ∃ height', Removing rest es (join side color X p (join side .red W₁ w W₂)) path height' (tree.setColor w.1 .red) := by
  have hr := (h.represents.up.down_other.setColor .red).up_other
  have hi : (plug (join side color X p (join side .red W₁ w W₂)) path).inorder = es := by
    rw [← h.inorder,plug]
    exact inorder_plug_congr (by simp only [inorder_join]) _
  obtain ⟨hW,hp⟩ := h.path
  obtain ⟨hb₁,hb₂⟩ := balanced_join_black.1 hW
  have hbx := h.nearly.balanced hX
  have hb : (join side .red W₁ w W₂).Balanced height := balanced_join_red.2 ⟨⟨hW₁,hW₂⟩,hb₁,hb₂⟩
  cases color with
  | red => exact ⟨height,hr,hi,.red side p hbx hb,hp.2.2⟩
  | black =>
    exact ⟨height + 1,hr,hi,.black color_join (balanced_join_black.2 ⟨hbx,hb⟩),hp⟩

/-- After the third case the sibling's child on the far side is red. -/
theorem Removing.nearRed
    (hr : ¬ (W₁.color = .black ∧ W₂.color = .black)) :
    ∃ tree' U v D d E, tree.removeNearRed side p.1 w.1 = some (tree', v.1) ∧
      Removing rest es X (⟨color,p,side,join side .black U v (join side .red D d E)⟩ :: path) height tree' := by
  obtain ⟨hW,hp⟩ := h.path
  obtain ⟨hW₁,hW₂⟩ := balanced_join_black.1 hW
  cases hc₂ : W₂.color with
  | red =>
    obtain ⟨D,d,E,rfl,-⟩ := exists_red hW₂ hc₂ side
    exact ⟨tree,W₁,w,D,d,E,removeNearRed_far h.represents (by rw [hc₂]; decide),h⟩
  | black =>
    have hc₁ : W₁.color = .red := by
      cases hc₁ : W₁.color with
      | red => rfl
      | black => exact absurd ⟨hc₁,hc₂⟩ hr
    obtain ⟨U,v,V,rfl,⟨-,hc⟩,hU,hV⟩ := exists_red hW₁ hc₁ side
    obtain ⟨tree',hn,h'⟩ := removeNearRed_spec h.represents hc₂
    refine ⟨tree',U,v,V,w,W₂,hn,h',?_,h.nearly,?_⟩
    · rw [← h.inorder,plug,plug]
      refine inorder_plug_congr ?_ _
      simp only [inorder_join,Side.arrange_arrange]
    · have hs : (join side .black U v (join side .red V w W₂)).Balanced (height+1) :=
        balanced_join_black.2 ⟨hU,balanced_join_red.2 ⟨⟨hc,hc₂⟩,hV,hW₂⟩⟩
      cases color with
      | red => exact ⟨hs,color_join,hp.2⟩
      | black => exact ⟨hs,hp⟩

end

/-- The fourth case repairs the tree. -/
theorem Removing.farRed {D E : Tree (Nat × κ)} {d : Nat × κ}
    (h : Removing rest es X (⟨color,p,side,join side .black W₁ w (join side .red D d E)⟩ :: path) height tree)
    (hX : X.color = .black) :
    ∃ tree' wh, tree.removeFarRed side p.1 w.1 = some tree' ∧ Repaired rest es wh tree' := by
  obtain ⟨tree',hf,h'⟩ := removeFarRed_spec h.represents
  obtain ⟨hW,hp⟩ := h.path
  obtain ⟨hW₁,hr⟩ := balanced_join_black.1 hW
  obtain ⟨-,hD,hE⟩ := balanced_join_red.1 hr
  have hb := h.nearly.balanced hX
  have hn : (join side .black X p W₁).Balanced (height+1) := balanced_join_black.2 ⟨hb,hW₁⟩
  have hf' : (join side .black D d E).Balanced (height+1) := balanced_join_black.2 ⟨hD,hE⟩
  have hpl : (plug (join side color (join side .black X p W₁) w (join side .black D d E)) path).color = .black ∧
      ∃ height', (plug (join side color (join side .black X p W₁) w (join side .black D d E)) path).Balanced height' := by
    cases color with
    | red =>
      refine PathBalanced.plug hp.2.2 (balanced_join_red.2 ⟨?_,hn,hf'⟩) (.inr hp.2.1)
      exact ⟨color_join,color_join⟩
    | black => exact PathBalanced.plug hp (balanced_join_black.2 ⟨hn,hf'⟩) (.inl color_join)
  refine ⟨tree',_,hf,h',?_,hpl.1,hpl.2⟩
  rw [← h.inorder,plug]
  refine inorder_plug_congr ?_ _
  simp only [inorder_join,Side.arrange_arrange]

/-- Rounds that may still come. -/
def rounds (shape : Tree (Nat × κ)) (path : List (Frame (Nat × κ))) : Nat :=
  2*path.length + if shape.color = .black then 1 else 0

/-- The loop ends at the root or at a red node. -/
def Ended (rest : Multiset (Nat × Node κ)) (entries : List (Nat × κ)) (result : RedBlackTree κ × Option Nat) : Prop :=
  ∃ shape path height, Removing rest entries shape path height result.1 ∧ result.2 = ptr shape ∧
    (path = [] ∨ shape.color ≠ .black)

theorem Removing.step_cons (h : Removing rest es X (⟨color,p,side,W⟩ :: path) height tree) (hX : X.color = .black) :
    ∃ tree' shape' path' height', removeFixupStep (tree, ptr X, some p.1) = some (.inl (tree', ptr shape', top path')) ∧
      rounds shape' path' < rounds X (⟨color,p,side,W⟩ :: path) ∧ Removing rest es shape' path' height' tree' := by
  obtain ⟨c,W₁,w,W₂,rfl⟩ := Balanced.exists_join h.path.1 side
  have hne : ptr (join side c W₁ w W₂) ≠ ptr X := by
    cases X with
    | nil => rw [ptr_join]; exact nofun
    | node color left e right => exact h.represents.sibling_ne rfl
  have hs : (if ptr X = tree.left p.1 then Side.left else Side.right) = side := by
    simpa only [@eq_comm _ (ptr X)] using h.represents.side_eq hne
  have hw : tree.child side.other p.1 = some w.1 := by rw [child,h.represents.read_frame,Node.child_other_of,ptr_join]
  have hbx := h.represents.isBlack.2 hX
  obtain ⟨tree₁,color',W₁',w',W₂',path',hrd,h₁,hl⟩ := h.redSibling ptr_join
  rw [removeFixupStep,if_pos ⟨h.represents.root_ne.symm,hbx⟩]
  dsimp only [bind_eq_bind,bind_some]
  rw [hs,hw,bind_some,hrd,bind_some]
  obtain ⟨hb₁,hb₂⟩ := isBlack_children h₁.represents
  by_cases hb : W₁'.color = .black ∧ W₂'.color = .black
  · rw [if_pos ⟨hb₁.2 hb.1,hb₂.2 hb.2⟩]
    obtain ⟨height',h₂⟩ := h₁.recolor hX hb.1 hb.2
    have hp : (tree₁.setColor w'.1 .red).parent p.1 = top path' := by
      rw [parent,h₂.represents.read,Node.parent_of]
    rw [hp]
    refine ⟨_,_,path',height',by rw [ptr_join]; rfl,?_,h₂⟩
    rw [rounds,rounds,Base.Tree.color_join,if_pos hX,List.length_cons]
    obtain hl | ⟨rfl,hl⟩ := hl
    · split_ifs <;> omega
    · rw [if_neg (by decide)]
      omega
  · rw [if_neg (fun hi => hb ⟨hb₁.1 hi.1,hb₂.1 hi.2⟩)]
    obtain ⟨tree₂,U,v,D,d,E,hn,h₂⟩ := h₁.nearRed hb
    obtain ⟨tree₃,wh,hf,h₃⟩ := h₂.farRed hX
    obtain ⟨height',hbl⟩ := h₃.balanced
    rw [hn,bind_some]
    rw [hf,bind_some,h₃.represents.root]
    cases wh with
    | nil =>
      have he := h.inorder.trans h₃.inorder.symm
      rw [plug,Base.Tree.inorder_plug,Base.Tree.inorder_join] at he
      cases side <;> simp [Side.arrange,Base.Tree.inorder] at he
    | node color left e right =>
      have hr := (show Represents tree₃ (plug (join .left color left e right) []) rest from h₃.represents).read
      refine ⟨tree₃,.node color left e right,[],height',?_,?_,h₃.represents,h₃.inorder,
        .black h₃.color hbl,trivial⟩
      · rw [ptr_node,bind_some,parent,hr,Node.parent_of]
        rfl
      · rw [rounds,rounds,if_pos hX,List.length_cons]
        split_ifs <;> simp

theorem Removing.step (h : Removing rest es X path height tree) :
    (∃ tree' shape' path' height', removeFixupStep (tree, ptr X, top path) = some (.inl (tree', ptr shape', top path')) ∧
      rounds shape' path' < rounds X path ∧ Removing rest es shape' path' height' tree') ∨
    removeFixupStep (tree, ptr X, top path) = some (.inr (tree, ptr X)) ∧ Ended rest es (tree, ptr X) := by
  by_cases hX : X.color = .black
  · cases path with
    | nil =>
      refine .inr ⟨?_,X,[],height,h,rfl,.inl rfl⟩
      rw [removeFixupStep,if_neg (fun hi => hi.1 h.represents.root.symm)]
    | cons f path => exact .inl (h.step_cons hX)
  · refine .inr ⟨?_,X,path,height,h,rfl,.inr hX⟩
    rw [removeFixupStep,if_neg (fun hi => hX (h.represents.isBlack.1 hi.2))]

/-- Blackening the node at which the loop ends. -/
theorem Ended.repaired {r : RedBlackTree κ × Option Nat} (h : Ended rest es r) :
    ∃ wh, Repaired rest es wh (r.1.setColorOf r.2 .black) := by
  obtain ⟨shape,path,height,h,hpt,he⟩ := h
  rw [hpt]
  obtain ⟨hr,rfl,hn,hp⟩ := h
  cases hn with
  | black hc hb =>
    obtain rfl | hrd := he
    · refine ⟨shape,?_,rfl,hc,height,hb⟩
      obtain rfl | ⟨c,n,e,f,rfl⟩ := eq_nil_or_join .left shape
      · exact hr
      · subst hc
        exact (hr).setColor .black
    · exact absurd hc hrd
  | @red n f side e hnr hf =>
    have hb : (join side .black n e f).Balanced (height+1) := balanced_join_black.2 ⟨hnr,hf⟩
    obtain ⟨hc,hw⟩ := hp.plug hb (.inl color_join)
    rw [ptr_join]
    refine ⟨_,hr.setColor .black,?_,hc,hw⟩
    exact inorder_plug_congr (by simp only [inorder_join]) _

/-- The loop repairs the tree. -/
theorem Removing.removeFixup (h : Removing rest es X path height tree) {fuel : Nat} (hf : 2*path.length + 1 < fuel) :
    ∃ tree' wh, tree.removeFixup fuel (ptr X) (top path) = some tree' ∧ Repaired rest es wh tree' := by
  have hr : rounds X path < fuel := by
    rw [rounds]
    split_ifs <;> omega
  have hl : ∃ result, loopM removeFixupStep fuel (tree, ptr X, top path) = some result ∧ Ended rest es result := by
    refine loopM_spec (I := fun k s => ∃ shape path height, s.2 = (ptr shape, top path) ∧
      Removing rest es shape path height s.1 ∧ rounds shape path ≤ k) ?_ ⟨X,path,height,rfl,h,le_rfl⟩ hr
    rintro k ⟨tree,x,xp⟩ ⟨shape,path,height,hs,h,hk⟩
    cases hs
    obtain ⟨tree',shape',path',height',hst,hlt,h'⟩ | ⟨hst,he⟩ := h.step
    · exact .inl ⟨_,rounds shape' path',hst,by omega,shape',path',height',rfl,h',le_rfl⟩
    · exact .inr ⟨_,hst,he⟩
  obtain ⟨result,hl,he⟩ := hl
  obtain ⟨wh,hw⟩ := Ended.repaired he
  refine ⟨_,wh,?_,hw⟩
  rw [RedBlackTree.removeFixup,hl]
  rfl

end WebKit.WTF.RedBlackTree
