import Mathlib.Data.List.Basic

/-! Red and black trees, and paths into them. A node is put together from the subtrees on a side and on the other one. -/
namespace WebKit.Base
open List

inductive Side where
  | left
  | right
  deriving DecidableEq

def Side.other : Side → Side
  | .left => .right
  | .right => .left

/-- The entries of two subtrees with the one between them, in order. -/
def Side.arrange {α : Type*} (side : Side) (near : List α) (entry : α) (far : List α) : List α :=
  match side with
  | .left => near ++ entry::far
  | .right => far ++ entry::near

theorem Side.arrange_other {α : Type*} (side : Side) (near far : List α) (entry : α) :
    side.other.arrange near entry far = side.arrange far entry near := by
  cases side <;> rfl

/-- A rotation keeps the order. -/
theorem Side.arrange_arrange {α : Type*} (side : Side) (A B C : List α) (x y : α) :
    side.arrange (side.arrange A x B) y C = side.arrange A x (side.arrange B y C) := by
  cases side <;> simp [arrange]

inductive Color where
  | red
  | black
  deriving DecidableEq

inductive Tree (α : Type*) where
  | nil
  | node (color : Color) (left : Tree α) (entry : α) (right : Tree α)

namespace Tree

variable {α : Type*}

def join (side : Side) (color : Color) (near : Tree α) (entry : α) (far : Tree α) : Tree α :=
  match side with
  | .left => node color near entry far
  | .right => node color far entry near

theorem join_other (side : Side) (color : Color) (near far : Tree α) (entry : α) :
    join side.other color near entry far = join side color far entry near := by
  cases side <;> rfl

theorem eq_nil_or_join (side : Side) (tree : Tree α) :
    tree = nil ∨ ∃ color near entry far, tree = join side color near entry far := by
  cases tree with
  | nil => exact .inl rfl
  | node color left entry right =>
    cases side with
    | left => exact .inr ⟨color,left,entry,right,rfl⟩
    | right => exact .inr ⟨color,right,entry,left,rfl⟩

def inorder : Tree α → List α
  | nil => []
  | node _ left entry right => left.inorder ++ entry::right.inorder

/-- The empty tree counts as black. -/
def color : Tree α → Color
  | nil => .black
  | node color _ _ _ => color

variable {side : Side} {near far tree : Tree α} {entry : α} {height : Nat}

@[simp] theorem color_join {color : Color} : (join side color near entry far).color = color := by cases side <;> rfl

/-- No red node has a red child, and the given number of black nodes lies on every way down. -/
def Balanced : Tree α → Nat → Prop
  | nil, height => height = 0
  | node .red left _ right, height =>
    (left.color = .black ∧ right.color = .black) ∧ left.Balanced height ∧ right.Balanced height
  | node .black left _ right, height => ∃ below, height = below + 1 ∧ left.Balanced below ∧ right.Balanced below

theorem balanced_join_red : (join side .red near entry far).Balanced height ↔
      (near.color = .black ∧ far.color = .black) ∧ near.Balanced height ∧ far.Balanced height := by
  cases side with
  | left => rfl
  | right =>
    rw [join,Balanced]
    tauto

theorem balanced_join_black :
    (join side .black near entry far).Balanced (height+1) ↔ near.Balanced height ∧ far.Balanced height := by
  cases side with
  | left =>
    rw [join,Balanced]
    simp
  | right =>
    rw [join,Balanced]
    simp [and_comm]

/-- A tree with black nodes on the way down is not empty. -/
theorem Balanced.exists_join (h : tree.Balanced (height+1)) (side : Side) :
    ∃ color near entry far, tree = join side color near entry far := by
  obtain rfl | hj := eq_nil_or_join side tree
  · cases h
  · exact hj

/-- A black node with black nodes on the way down from it. -/
theorem Balanced.exists_black (h : tree.Balanced (height+1)) (hc : tree.color = .black)
    (side : Side) : ∃ near entry far, tree = join side .black near entry far ∧ near.Balanced height ∧ far.Balanced height := by
  obtain ⟨color,near,entry,far,rfl⟩ := h.exists_join side
  rw [color_join] at hc
  subst hc
  exact ⟨near,entry,far,rfl,balanced_join_black.1 h⟩

theorem exists_red (h : tree.Balanced height) (hc : tree.color = .red) (side : Side) :
    ∃ near entry far, tree = join side .red near entry far ∧ (near.color = .black ∧ far.color = .black) ∧
      near.Balanced height ∧ far.Balanced height := by
  obtain rfl | ⟨color,near,entry,far,rfl⟩ := eq_nil_or_join side tree
  · cases hc
  · rw [color_join] at hc
    subst hc
    exact ⟨near,entry,far,rfl,balanced_join_red.1 h⟩

theorem inorder_join {color : Color} :
    (join side color near entry far).inorder = side.arrange near.inorder entry far.inorder := by
  cases side <;> rfl

/-- A step of a path: the node above, its side, and the subtree on the other side. -/
structure Frame (α : Type*) where
  color : Color
  entry : α
  side : Side
  sibling : Tree α

namespace Frame

def before (frame : Frame α) : List α :=
  match frame.side with
  | .left => []
  | .right => frame.sibling.inorder ++ [frame.entry]

def after (frame : Frame α) : List α :=
  match frame.side with
  | .left => frame.entry::frame.sibling.inorder
  | .right => []

end Frame

/-- The whole tree around a subtree. -/
def plug (tree : Tree α) : List (Frame α) → Tree α
  | [] => tree
  | frame::path => plug (join frame.side frame.color tree frame.entry frame.sibling) path

theorem plug_append (tree : Tree α) (path path' : List (Frame α)) : tree.plug (path ++ path') = (tree.plug path).plug path' := by
  induction path generalizing tree with
  | nil => rfl
  | cons f path ih => exact ih _

def before : List (Frame α) → List α
  | [] => []
  | frame::path => before path ++ frame.before

def after : List (Frame α) → List α
  | [] => []
  | frame::path => frame.after ++ after path

theorem before_append (path path' : List (Frame α)) : before (path ++ path') = before path' ++ before path := by
  induction path with
  | nil => rw [nil_append,before,append_nil]
  | cons f path ih => rw [cons_append,before,ih,before,append_assoc]

theorem after_append (path path' : List (Frame α)) : after (path ++ path') = after path ++ after path' := by
  induction path with
  | nil => rfl
  | cons f path ih => rw [cons_append,after,ih,after,append_assoc]

theorem inorder_plug (tree : Tree α) (path : List (Frame α)) :
    (plug tree path).inorder = before path ++ tree.inorder ++ after path := by
  induction path generalizing tree with
  | nil => simp [plug,before,after]
  | cons f path ih =>
    obtain ⟨color,entry,side,s⟩ := f
    rw [plug,ih]
    cases side <;> simp [before,after,Frame.before,Frame.after,join,inorder]

theorem inorder_plug_congr {tree' : Tree α} (h : tree.inorder = tree'.inorder) (path : List (Frame α)) :
    (plug tree path).inorder = (plug tree' path).inorder := by
  rw [inorder_plug,inorder_plug,h]

/-- The other child of the same node. -/
theorem plug_sibling (color : Color) (entry : α) (side : Side) (near far : Tree α) (path : List (Frame α)) :
    plug near (⟨color,entry,side,far⟩ :: path) = plug far (⟨color,entry,side.other,near⟩ :: path) := by
  rw [plug,plug,join_other]

/-- Every entry lies on top of some subtree. -/
theorem exists_plug (h : entry ∈ tree.inorder) :
    ∃ color left right path, tree = plug (node color left entry right) path := by
  suffices hs : ∀ (tree : Tree α) (path : List (Frame α)), entry ∈ tree.inorder →
      ∃ color left right path', plug tree path = plug (node color left entry right) path' from hs tree [] h
  intro tree
  induction tree with
  | nil => exact fun _ => nofun
  | node color left top right ih i =>
    intro path h
    rw [inorder,mem_append,mem_cons] at h
    obtain h | rfl | h := h
    · exact ih (⟨color,top,.left,right⟩ :: path) h
    · exact ⟨color,left,right,path,rfl⟩
    · exact i (⟨color,top,.right,left⟩ :: path) h

/-- The path starts below a black node. -/
def BelowBlack (path : List (Frame α)) : Prop := ∃ above rest, path = above :: rest ∧ above.color = .black

/-- Balanced subtrees of the given height fit under the path, black ones under a red node. The whole root is black. -/
def PathBalanced : List (Frame α) → Nat → Prop
  | [], _ => True
  | frame::path, height => frame.sibling.Balanced height ∧
    match frame.color with
    | .red => frame.sibling.color = .black ∧ BelowBlack path ∧ PathBalanced path height
    | .black => PathBalanced path (height+1)

variable {path : List (Frame α)}

/-- A tree under a path, with a red top only below a black node. -/
theorem PathBalanced.plug (hp : PathBalanced path height)
    (ht : tree.Balanced height) (hc : tree.color = .black ∨ BelowBlack path) :
    (tree.plug path).color = .black ∧ ∃ height', (tree.plug path).Balanced height' := by
  induction path generalizing tree height with
  | nil =>
    obtain hc | ⟨_,_,hn,_⟩ := hc
    · exact ⟨hc,height,ht⟩
    · cases hn
  | cons f path ih =>
    obtain ⟨color,entry,side,s⟩ := f
    obtain ⟨hs,hp⟩ := hp
    cases color with
    | red =>
      obtain ⟨hb,ha,hp⟩ := hp
      have htp : tree.color = .black := by
        obtain htp | ⟨_,_,he,hf⟩ := hc
        · exact htp
        · cases he
          cases hf
      exact ih hp (balanced_join_red.2 ⟨⟨htp,hb⟩,ht,hs⟩) (.inr ha)
    | black => exact ih hp (balanced_join_black.2 ⟨ht,hs⟩) (.inl color_join)

/-- A subtree of a balanced tree with a black root is balanced, and so is its path. -/
theorem Balanced.split (h : (tree.plug path).Balanced height) (hb : (tree.plug path).color = .black) :
    ∃ height', tree.Balanced height' ∧ PathBalanced path height' ∧ (tree.color = .black ∨ BelowBlack path) := by
  induction path generalizing tree with
  | nil => exact ⟨height,h,trivial,.inl hb⟩
  | cons f path ih =>
    obtain ⟨color,entry,side,s⟩ := f
    obtain ⟨height',hj,hp,hc⟩ := ih h hb
    rw [color_join] at hc
    cases color with
    | red =>
      obtain ⟨⟨ht,hs⟩,hbl,hbl'⟩ := balanced_join_red.1 hj
      exact ⟨height',hbl,⟨hbl',hs,hc.resolve_left nofun,hp⟩,.inl ht⟩
    | black =>
      cases height' with
      | zero => cases side <;> obtain ⟨_,hz,_⟩ := hj <;> cases hz
      | succ b =>
        obtain ⟨hbl,hbl'⟩ := balanced_join_black.1 hj
        exact ⟨b,hbl,⟨hbl',hp⟩,.inr ⟨_,_,rfl,rfl⟩⟩

theorem length_inorder_plug (tree : Tree α) (path : List (Frame α)) :
    tree.inorder.length + path.length ≤ (tree.plug path).inorder.length := by
  induction path generalizing tree with
  | nil => exact Nat.le_refl _
  | cons f path ih =>
    have hj := ih (join f.side f.color tree f.entry f.sibling)
    have hl : tree.inorder.length + 1 ≤ (join f.side f.color tree f.entry f.sibling).inorder.length := by
      rw [inorder_join]
      cases f.side <;> simp only [Side.arrange,length_append,length_cons] <;> omega
    rw [plug,length_cons]
    omega

end Tree
end WebKit.Base
