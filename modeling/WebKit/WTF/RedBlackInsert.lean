import WebKit.WTF.RedBlackSearch

/-! Insertion into a red-black tree. -/
namespace WebKit.WTF.RedBlackTree
open Base.Tree RedBlackTree List Option Nat

open Base (Side Color Holds loopM loopM_spec)
open Base.Tree (Frame join plug before after Balanced PathBalanced BelowBlack balanced_join_red balanced_join_black)

variable {κ : Type} {tree tree' : RedBlackTree κ} {side : Side} {shape : Tree (Nat × κ)} {path : List (Frame (Nat × κ))}
  {rest : Multiset (Nat × Node κ)} {x p g : Nat × κ} {C Y : Tree (Nat × κ)}

/-- A red uncle: parent and uncle become black and the grandparent red. -/
theorem recolor_spec {s : Side} {Y₁ Y₂ : Tree (Nat × κ)} {y : Nat × κ}
    (h : Represents tree (plug shape (⟨.red,p,s,C⟩ :: ⟨.black,g,side,join side .red Y₁ y Y₂⟩ :: path)) rest) :
    Represents (((tree.setColor p.1 .black).setColor y.1 .black).setColor g.1 .red)
      (plug (join side .red (join s .black shape p C) g (join side .black Y₁ y Y₂)) path) rest := by
  have h₁ := h.setColor_frame .black
  rw [plug,plug_sibling] at h₁
  have h₂ := h₁.setColor .black
  rw [← plug_sibling] at h₂
  exact h₂.setColor_frame .red

private theorem insertInner_spec {A B : Tree (Nat × κ)}
    (h : Represents tree (plug (join side .red A x B) (⟨.red,p,side.other,C⟩ :: path)) rest) :
    ∃ tree', tree.insertInner side x.1 p.1 = some (tree', p.1) ∧
      Represents tree' (plug (join side .red C p A) (⟨.red,x,side,B⟩ :: path)) rest := by
  have hc : tree.child side.other p.1 = some x.1 := by
    rw [child,h.read_frame,Node.child_of,ptr_join]
  rw [plug,join_other] at h
  obtain ⟨tree',hr,h'⟩ := h.rotate
  refine ⟨tree',?_,h'⟩
  rw [insertInner,if_pos hc,hr]
  rfl

private theorem insertInner_outer {a : Nat} (h : Represents tree (plug shape (⟨.red,p,side,C⟩ :: path)) rest)
    (hx : ptr shape = some a) : tree.insertInner side a p.1 = some (tree, a) := by
  have hc : tree.child side.other p.1 ≠ some a := by
    rw [child,h.read_frame,Node.child_other_of]
    exact h.sibling_ne hx
  rw [insertInner,if_neg hc]

private theorem insertOuter_spec {a : Nat}
    (h : Represents tree (plug shape (⟨.red,p,side,C⟩ :: ⟨.black,g,side,Y⟩ :: path)) rest) (hx : ptr shape = some a) :
    ∃ tree', tree.insertOuter side a = some tree' ∧
      Represents tree' (plug shape (⟨.black,p,side,join side .red C g Y⟩ :: path)) rest := by
  cases shape with
  | nil => cases hx
  | node c left e right =>
    cases hx
    have hp : tree.parent e.1 = some p.1 := by
      have hrd := (show Represents tree (plug (join .left c left e right)
        (⟨.red,p,side,C⟩ :: ⟨.black,g,side,Y⟩ :: path)) rest from h).read
      rw [parent,hrd,Node.parent_of,top]
    have h₁ := h.setColor_frame .black
    have hg : (tree.setColor p.1 .black).parent p.1 = some g.1 := by
      rw [parent,h₁.read_frame,Node.parent_of,top]
    rw [plug] at h₁
    have h₂ := h₁.setColor_frame .red
    rw [plug,← join_other,← join_other side .black] at h₂
    obtain ⟨tree',hr,h₃⟩ := h₂.rotate
    refine ⟨tree',?_,?_⟩
    · rw [insertOuter,hp]
      dsimp only [bind_eq_bind,bind_some]
      rw [hg]
      exact hr
    · rw [join_other,join_other] at h₃
      exact h₃

/-- Only the node and its parent may both be red. The bound is on the path above. -/
structure Inserting (rest : Multiset (Nat × Node κ)) (entries : List (Nat × κ)) (shape : Tree (Nat × κ))
    (path : List (Frame (Nat × κ))) (height : Nat) (tree : RedBlackTree κ) (x : Nat) : Prop where
  represents : Represents tree (plug shape path) rest
  inorder : (plug shape path).inorder = entries
  ptr : ptr shape = some x
  color : shape.color = .red
  balanced : shape.Balanced height
  path : PathBalanced path height

def Inserted (rest : Multiset (Nat × Node κ)) (entries : List (Nat × κ)) (tree : RedBlackTree κ) : Prop :=
  ∃ whole height, Represents tree whole rest ∧ whole.inorder = entries ∧ Balanced whole height

variable {es : List (Nat × κ)} {height a : Nat}

/-- Below a red parent with a red uncle. -/
theorem Inserting.recolor {s : Side} (h : Inserting rest es shape (⟨.red,p,s,C⟩ :: ⟨.black,g,side,Y⟩ :: path)
    height tree a) (hY : Y.color = .red) :
    ∃ shape', Inserting rest es shape' path (height+1)
      (((tree.setColor p.1 .black).setColorOf (RedBlackTree.ptr Y) .black).setColor g.1 .red) g.1 := by
  obtain ⟨hb,hc,-,hby,hp⟩ := h.path
  obtain ⟨Y₁,y,Y₂,rfl,-,hY₁,hY₂⟩ := exists_red hby hY side
  rw [ptr_join]
  refine ⟨_,recolor_spec h.represents,?_,ptr_join,color_join,?_,hp⟩
  · rw [← h.inorder]
    exact inorder_plug_congr (by simp only [inorder_join]) path
  · refine balanced_join_red.2 ⟨⟨color_join,color_join⟩,?_,?_⟩
    · exact balanced_join_black.2 ⟨h.balanced,hb⟩
    · exact balanced_join_black.2 ⟨hY₁,hY₂⟩

theorem Inserting.inner
    (h : Inserting rest es shape (⟨.red,p,side.other,C⟩ :: ⟨.black,g,side,Y⟩ :: path) height tree a) :
    ∃ tree' shape' x B, tree.insertInner side a p.1 = some (tree', p.1) ∧
      Inserting rest es shape' (⟨.red,x,side,B⟩ :: ⟨.black,g,side,Y⟩ :: path) height tree' p.1 := by
  obtain ⟨A,x,B,rfl,⟨hc,hcb⟩,hA,hB⟩ := exists_red h.balanced h.color side
  obtain ⟨hC,hcc,hb,hp⟩ := h.path
  have hpt := h.ptr
  rw [ptr_join] at hpt
  cases hpt
  obtain ⟨tree',hi,h'⟩ := insertInner_spec h.represents
  refine ⟨tree',_,x,B,hi,h',?_,ptr_join,color_join,?_,hB,hcb,hb,hp⟩
  · rw [← h.inorder,plug,plug]
    refine inorder_plug_congr ?_ _
    simp only [inorder_join,Side.arrange_arrange,Side.arrange_other]
  · exact balanced_join_red.2 ⟨⟨hcc,hc⟩,hC,hA⟩

theorem Inserting.outer (h : Inserting rest es shape (⟨.red,p,side,C⟩ :: ⟨.black,g,side,Y⟩ :: path) height tree a)
    (hY : Y.color = .black) :
    ∃ tree', tree.insertOuter side a = some tree' ∧
      Inserting rest es shape (⟨.black,p,side,join side .red C g Y⟩ :: path) height tree' a := by
  obtain ⟨hC,hc,hb,hby,hp⟩ := h.path
  obtain ⟨tree',ho,h'⟩ := insertOuter_spec h.represents h.ptr
  refine ⟨tree',ho,h',?_,h.ptr,h.color,h.balanced,?_,hp⟩
  · rw [← h.inorder,plug,plug]
    refine inorder_plug_congr ?_ _
    simp only [inorder_join,Side.arrange_arrange]
  · exact balanced_join_red.2 ⟨⟨hc,hY⟩,hC,hby⟩

/-- Below a red parent with a black uncle. -/
theorem Inserting.rotate {s : Side} (h : Inserting rest es shape (⟨.red,p,s,C⟩ :: ⟨.black,g,side,Y⟩ :: path)
    height tree a) (hY : Y.color = .black) :
    ∃ tree₁ tree₂ b shape' f, tree.insertInner side a p.1 = some (tree₁, b) ∧ tree₁.insertOuter side b = some tree₂ ∧
      Inserting rest es shape' (f::path) height tree₂ b := by
  obtain rfl | rfl : s = side ∨ s = side.other := by cases s <;> cases side <;> simp [Side.other]
  · obtain ⟨tree',ho,h'⟩ := h.outer hY
    exact ⟨tree,tree',a,shape,_,insertInner_outer h.represents h.ptr,ho,h'⟩
  · obtain ⟨tree₁,shape',x,B,hi,h₁⟩ := h.inner
    obtain ⟨tree₂,ho,h₂⟩ := h₁.outer hY
    exact ⟨tree₁,tree₂,p.1,shape',_,hi,ho,h₂⟩

theorem Inserting.step (h : Inserting rest es shape path height tree a) :
    (∃ tree' a' shape' path' height', insertStep (tree, a) = some (.inl (tree', a')) ∧ path'.length < path.length ∧
      Inserting rest es shape' path' height' tree' a') ∨
    ∃ tree', insertStep (tree, a) = some (.inr tree') ∧ Inserted rest es tree' := by
  rw [insertStep]
  cases path with
  | nil =>
    rw [if_pos (h.represents.root.trans h.ptr)]
    exact .inr ⟨tree,rfl,shape,height,h.represents,h.inorder,h.balanced⟩
  | cons f path =>
    rw [if_neg (h.ptr ▸ h.represents.root_ne)]
    obtain ⟨color,p,s,C⟩ := f
    have hp : tree.parent a = some p.1 := by
      obtain ⟨A,x,B,rfl,-⟩ := exists_red h.balanced h.color .left
      have hpt := h.ptr
      cases hpt
      rw [parent,h.represents.read,Node.parent_of,top]
    have hcl : tree.color p.1 = color := by rw [RedBlackTree.color,h.represents.read_frame,Node.color_of]
    rw [hp]
    dsimp only [bind_eq_bind,bind_some]
    rw [hcl]
    cases color with
    | black =>
      obtain ⟨-,height',hbl⟩ := h.path.plug h.balanced (.inr ⟨_,_,rfl,rfl⟩)
      exact .inr ⟨tree,rfl,_,height',h.represents,h.inorder,hbl⟩
    | red =>
      obtain ⟨-,-,⟨f,path,rfl,hb⟩,-⟩ := h.path
      obtain ⟨_,g,side,Y⟩ := f
      cases hb
      have hg : Represents tree (plug (join s .red shape p C) (⟨.black,g,side,Y⟩ :: path)) rest := h.represents
      have hgr : tree.parent p.1 = some g.1 := by rw [parent,hg.read,Node.parent_of,top]
      have hs := hg.side_eq (by rw [ptr_join]; exact hg.sibling_ne ptr_join)
      rw [ptr_join] at hs
      have hY : tree.child side.other g.1 = RedBlackTree.ptr Y := by rw [child,hg.read_frame,Node.child_other_of]
      have hb : tree.isBlack (RedBlackTree.ptr Y) ↔ Y.color = .black := by
        rw [plug_sibling] at hg
        exact hg.isBlack
      rw [hgr]
      dsimp only [bind_some]
      rw [hs,hY]
      by_cases hcy : Y.color = .black
      · obtain ⟨tree₁,tree₂,b,shape',f,hi,ho,h'⟩ := h.rotate hcy
        rw [if_pos (hb.2 hcy),hi]
        dsimp only [bind_some]
        rw [ho]
        exact .inl ⟨tree₂,b,shape',_,height,rfl,by simp,h'⟩
      · rw [if_neg (fun he => hcy (hb.1 he))]
        obtain ⟨shape',h'⟩ := h.recolor (by cases hc : Y.color with | red => rfl | black => exact absurd hc hcy)
        exact .inl ⟨_,_,shape',path,_,rfl,lt_succ_of_lt (lt_succ_self _),h'⟩

theorem Inserting.loop {fuel : Nat} (h : Inserting rest es shape path height tree a) (hf : path.length < fuel) :
    ∃ tree', loopM insertStep fuel (tree, a) = some tree' ∧ Inserted rest es tree' := by
  refine loopM_spec (I := fun k s => ∃ shape path height, Inserting rest es shape path height s.1 s.2 ∧ path.length ≤ k)
    (fun k s ⟨shape,path,height,h,hk⟩ => ?_) ⟨shape,path,height,h,le_rfl⟩ hf
  obtain ⟨tree',a',shape',path',height',hs,hl,h'⟩ | ⟨tree',hs,h'⟩ := h.step
  · exact .inl ⟨(tree', a'),path'.length,hs,by omega,shape',path',height',h',le_rfl⟩
  · exact .inr ⟨tree',hs,h'⟩

theorem Inserted.blacken (h : Inserted rest es tree) {b : Nat} (hr : tree.root = some b) :
    ∃ whole height, Represents (tree.setColor b .black) whole rest ∧ whole.inorder = es ∧ whole.color = .black ∧
      Balanced whole height := by
  obtain ⟨whole,height,hrp,rfl,hb⟩ := h
  have hp := hrp.root.symm.trans hr
  cases whole with
  | nil => cases hp
  | node c left e right =>
    cases hp
    have h' := (show Represents tree (plug (join .left c left e right) []) rest from hrp).setColor .black
    cases c with
    | red => exact ⟨_,height + 1,h',rfl,rfl,balanced_join_black.2 hb.2⟩
    | black => exact ⟨_,height,h',rfl,rfl,hb⟩

section
variable [LinearOrder κ] {z : Nat × κ} {whole : Tree (Nat × κ)} {fuel : Nat}

/-- The new key belongs after what lies before the path and before what lies after it. -/
structure Place (key : κ) (path : List (Frame (Nat × κ))) : Prop extends Between (· ≤ key) (key < ·) path where
  side : ∀ frame ∈ path.head?, (key < frame.entry.2 ↔ frame.side = .left)

theorem Place.goLeft {key : κ} {c : Color} {left right : Tree (Nat × κ)} {e : Nat × κ} (h : Place key path)
    (hs : Sorted (plug (.node c left e right) path).inorder) (hl : key < e.2) :
    Place key (⟨c,e,.left,right⟩ :: path) := by
  refine ⟨h.goLeft_lt hs hl,fun f hf => ?_⟩
  cases hf
  exact ⟨fun _ => rfl,fun _ => hl⟩

theorem Place.goRight {key : κ} {c : Color} {left right : Tree (Nat × κ)} {e : Nat × κ} (h : Place key path)
    (hs : Sorted (plug (.node c left e right) path).inorder) (hl : ¬ key < e.2) :
    Place key (⟨c,e,.right,left⟩ :: path) := by
  refine ⟨h.toBetween.goRight hs (fun _ _ => le_trans) (not_lt.1 hl),fun f hf => ?_⟩
  cases hf
  exact ⟨fun hlt => absurd hlt hl,nofun⟩

private theorem treeInsertPlace_spec {node : Node κ} (h : Represents tree whole ({(z.1, node)} + rest)) (hky : node.key = z.2)
    (hsr : Sorted whole.inorder) (hf : whole.inorder.length < fuel) :
    ∃ path, tree.treeInsertPlace fuel z.1 = some (top path) ∧ whole = plug .nil path ∧ Place z.2 path := by
  have hz : tree.key z.1 = z.2 := by
    rw [key,(h.holds.move (show {(z.1, node)} + (cells none whole+rest) = _ by abel)).read,hky]
  have hl : ∃ y, tree.treeInsertPlace fuel z.1 = some y ∧
      ∃ path, y = top path ∧ whole = plug .nil path ∧ Place z.2 path := by
    refine loopM_spec (I := fun k s => ∃ shape path, whole = plug shape path ∧ s = (top path, ptr shape) ∧
      shape.inorder.length ≤ k ∧ Place z.2 path) (fun k s ⟨shape,path,hpl,hs,hk,hp⟩ => ?_)
      ⟨whole,[],rfl,Prod.ext rfl h.root,le_rfl,⟨nofun,nofun⟩,nofun⟩ hf
    subst hs
    rw [hpl] at h hsr
    cases shape with
    | nil => exact .inr ⟨_,rfl,path,rfl,hpl,hp⟩
    | node c left e right =>
      have hr := (show Represents tree (plug (join .left c left e right) path) _ from h).read
      rw [inorder,length_append,length_cons] at hk
      have hky' : tree.key e.1 = e.2 := by rw [key,hr,Node.key_of]
      refine .inl ?_
      dsimp only [ptr_node]
      rw [hz,hky']
      by_cases hlt : z.2 < e.2
      · rw [if_pos hlt,RedBlackTree.left,hr]
        exact ⟨_,left.inorder.length,rfl,by omega,left,⟨c,e,.left,right⟩ :: path,hpl,rfl,le_rfl,hp.goLeft hsr hlt⟩
      · rw [if_neg hlt,RedBlackTree.right,hr]
        exact ⟨_,right.inorder.length,rfl,by omega,right,⟨c,e,.right,left⟩ :: path,hpl,rfl,le_rfl,hp.goRight hsr hlt⟩
  obtain ⟨y,hy,path,rfl,hpl,hp⟩ := hl
  exact ⟨path,hy,hpl,hp⟩

private theorem treeInsert_spec (h : Represents tree whole ({(z.1, ⟨none,none,none,.red,z.2⟩)} + rest))
    (hsr : Sorted whole.inorder) (hfl : whole.inorder.length < fuel) :
    ∃ path tree', tree.treeInsert fuel z.1 = some tree' ∧ whole = plug .nil path ∧ Place z.2 path ∧
      Represents tree' (plug (.node .red .nil z .nil) path) rest := by
  obtain ⟨path,hp,rfl,hpt⟩ := treeInsertPlace_spec h rfl hsr hfl
  have h₁ : Represents (tree.setParent z.1 (top path)) (plug .nil path) ({(z.1, ⟨none,none,top path,.red,z.2⟩)} + rest) := by
    refine ⟨?_,h.root⟩
    have hm := (h.holds.move (show {(z.1, _)} + (cells none (plug .nil path)+rest) = _ by abel)).modify
      (Node.setParent (top path))
    exact hm.move (by rw [Node.setParent]; abel)
  rw [treeInsert,hp]
  dsimp only [bind_eq_bind,bind_some]
  generalize tree.setParent z.1 (top path) = tree₁ at h₁ ⊢
  cases path with
  | nil =>
    refine ⟨[],_,rfl,rfl,hpt,?_,rfl⟩
    have hh := h₁.holds
    rw [plug,cells,zero_add] at hh
    exact hh
  | cons f path =>
    have hz : tree₁.key z.1 = z.2 := by
      rw [key,(h₁.holds.move (show {(z.1, _)} + (cells none (plug .nil (f::path)) + rest) = _ by abel)).read]
    have hf : tree₁.key f.entry.1 = f.entry.2 := by rw [key,h₁.read_frame,Node.key_of]
    have hs := hpt.side f rfl
    refine ⟨f::path,tree₁.setChild f.side f.entry.1 (some z.1),?_,rfl,hpt,h₁.attach⟩
    dsimp only [top]
    rw [hz,hf]
    by_cases hl : z.2 < f.entry.2
    · rw [if_pos hl,hs.1 hl]
      rfl
    · rw [if_neg hl]
      cases hc : f.side with
      | left => exact absurd (hs.2 hc) hl
      | right => rfl

/-- Inserting a node that is not in the tree. -/
theorem insert_spec {height : Nat} (h : Represents tree whole rest) (hf : z.1 ∉ (cells none whole+rest).map Prod.fst)
    (hk : (tree.heap z.1).key = z.2) (hs : Sorted whole.inorder) (hbl : whole.color = .black)
    (hba : whole.Balanced height) (hfl : whole.inorder.length < fuel) :
    ∃ tree' whole' height' l l', tree.insert fuel z.1 = some tree' ∧ Represents tree' whole' rest ∧
      whole.inorder = l ++ l' ∧ whole'.inorder = l ++ z :: l' ∧ Sorted whole'.inorder ∧ whole'.color = .black ∧
      whole'.Balanced height' := by
  have h₁ : Represents { tree with heap := Base.modify tree.heap z.1 Node.reset } whole
      ({(z.1, ⟨none,none,none,.red,z.2⟩)} + rest) := by
    refine ⟨?_,h.root⟩
    have hal := h.holds.alloc hf (Node.reset (tree.heap z.1))
    rw [Node.reset,hk] at hal
    rw [Base.modify,Node.reset,hk]
    exact hal.move (by abel)
  obtain ⟨path,tree₂,hi,rfl,hp,h₂⟩ := treeInsert_spec h₁ hs hfl
  obtain ⟨bl,hn,hpt,-⟩ := hba.split hbl
  have h₃ := (show Represents tree₂ (plug (join .left .red .nil z .nil) path) rest from h₂).setColor .red
  have hln := length_inorder_plug .nil path
  obtain ⟨tree₄,hl,h₄⟩ := Inserting.loop ⟨h₃,rfl,ptr_join,rfl,balanced_join_red.2 ⟨⟨rfl,rfl⟩,hn,hn⟩,hpt⟩
    (show path.length < fuel by omega)
  have hr : ∃ b, tree₄.root = some b := by
    obtain ⟨whole,-,hrp,hin,-⟩ := h₄
    cases whole with
    | nil =>
      rw [inorder_plug] at hin
      simp [inorder_join,Base.Side.arrange,inorder] at hin
    | node c left en right => exact ⟨_,hrp.root⟩
  obtain ⟨b,hb⟩ := hr
  obtain ⟨whole',height',h₅,hin,hbl',hba'⟩ := h₄.blacken hb
  have hin' : whole'.inorder = before path ++ z :: after path := by
    rw [hin,inorder_plug]
    simp [inorder_join,Base.Side.arrange,inorder]
  have ho : (plug .nil path).inorder = before path ++ after path := by
    rw [inorder_plug,inorder,append_nil]
  refine ⟨_,whole',height',before path,after path,?_,h₅,ho,hin',?_,hbl',hba'⟩
  · rw [insert]
    dsimp only [bind_eq_bind]
    rw [hi,bind_some,hl,bind_some,hb]
    rfl
  · rw [ho,Sorted,pairwise_append] at hs
    rw [hin',Sorted,pairwise_append]
    refine ⟨hs.1,pairwise_cons.2 ⟨fun e he => (hp.after e he).le,hs.2.1⟩,fun a ha b hb => ?_⟩
    obtain rfl | hb := mem_cons.1 hb
    · exact hp.before a ha
    · exact hs.2.2 a ha b hb

end

end WebKit.WTF.RedBlackTree
