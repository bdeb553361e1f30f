import WebKit.WTF.RedBlackTree

/-! The tree that the links of the nodes represent, and what the operations on the links do to it. Besides the cells of the tree
the memory may hold others. -/
namespace WebKit.WTF
open Base.Tree RedBlackTree Node

export Base (Tree)
open Base (Side Color Holds modify)
open Base.Tree (Frame join plug)

variable {κ : Type}

namespace Node

/-- The node with the given children on a side and on the other side. -/
def of (side : Side) (near far parent : Option Nat) (color : Color) (key : κ) : Node κ :=
  match side with
  | .left => ⟨near,far,parent,color,key⟩
  | .right => ⟨far,near,parent,color,key⟩

section
variable {side : Side} {near far parent p : Option Nat} {color c : Color} {key : κ}

@[simp] theorem child_of : (of side near far parent color key).child side = near := by cases side <;> rfl

@[simp] theorem child_other_of : (of side near far parent color key).child side.other = far := by cases side <;> rfl

@[simp] theorem parent_of : (of side near far parent color key).parent = parent := by cases side <;> rfl

@[simp] theorem color_of : (of side near far parent color key).color = color := by cases side <;> rfl

@[simp] theorem key_of : (of side near far parent color key).key = key := by cases side <;> rfl

theorem left_of_eq (h : far ≠ near) : (of side near far parent color key).left = near ↔ side = .left := by
  cases side with
  | left => exact ⟨fun _ => rfl,fun _ => rfl⟩
  | right => exact ⟨fun he => absurd he h,nofun⟩

@[simp] theorem setChild_of : (of side near far parent color key).setChild side p = of side p far parent color key := by
  cases side <;> rfl

@[simp] theorem setChild_other_of :
    (of side near far parent color key).setChild side.other p = of side near p parent color key := by cases side <;> rfl

@[simp] theorem setParent_of : (of side near far parent color key).setParent p = of side near far p color key := by
  cases side <;> rfl

@[simp] theorem setColor_of : (of side near far parent color key).setColor c = of side near far parent c key := by
  cases side <;> rfl

end
end Node

namespace RedBlackTree

def ptr : Tree (Nat × κ) → Option Nat
  | .nil => none
  | .node _ _ entry _ => some entry.1

/-- The cells of a subtree under the given parent. -/
def cells (parent : Option Nat) : Tree (Nat × κ) → Multiset (Nat × Node κ)
  | .nil => 0
  | .node color left entry right =>
    {(entry.1, ⟨ptr left,ptr right,parent,color,entry.2⟩)} + (cells (some entry.1) left+cells (some entry.1) right)

def top : List (Frame (Nat × κ)) → Option Nat
  | [] => none
  | frame::_ => some frame.entry.1

/-- The cells along a path and beside it, down to a pointer. -/
def pathCells (pointer : Option Nat) : List (Frame (Nat × κ)) → Multiset (Nat × Node κ)
  | [] => 0
  | frame::path =>
    {(frame.entry.1, of frame.side pointer (ptr frame.sibling) (top path) frame.color frame.entry.2)} +
      (cells (some frame.entry.1) frame.sibling+pathCells (some frame.entry.1) path)

def rootPtr (pointer : Option Nat) : List (Frame (Nat × κ)) → Option Nat
  | [] => pointer
  | frame::path => rootPtr (some frame.entry.1) path

structure Represents (tree : RedBlackTree κ) (shape : Tree (Nat × κ)) (rest : Multiset (Nat × Node κ)) : Prop where
  holds : Holds tree.heap (cells none shape+rest)
  root : tree.root = ptr shape

variable {tree : RedBlackTree κ} {side : Side} {color : Color} {near far shape : Tree (Nat × κ)} {entry : Nat × κ}
  {path : List (Frame (Nat × κ))} {rest : Multiset (Nat × Node κ)} {parent : Option Nat}

@[simp] theorem ptr_nil : ptr (.nil : Tree (Nat × κ)) = none := rfl

@[simp] theorem ptr_node : ptr (.node color near entry far) = some entry.1 := rfl

@[simp] theorem ptr_join : ptr (join side color near entry far) = some entry.1 := by cases side <;> rfl

theorem cells_join : cells parent (join side color near entry far) =
    {(entry.1, of side (ptr near) (ptr far) parent color entry.2)} +
      (cells (some entry.1) near+cells (some entry.1) far) := by
  cases side with
  | left => rfl
  | right => rw [join,cells,add_comm (cells _ far),of]

theorem ptr_plug : ptr (plug shape path) = rootPtr (ptr shape) path := by
  induction path generalizing shape with
  | nil => rfl
  | cons frame path ih => rw [plug,ih,ptr_join,rootPtr]

private theorem cells_plug : cells none (plug shape path) = cells (top path) shape + pathCells (ptr shape) path := by
  induction path generalizing shape with
  | nil => rw [plug,top,pathCells,add_zero]
  | cons frame path ih =>
    rw [plug,ih,cells_join,ptr_join,pathCells,top]
    abel

private theorem rootPtr_ne_none {a : Nat} : rootPtr (some a) path ≠ none := by
  induction path generalizing a with
  | nil => exact nofun
  | cons frame path ih => exact ih

/-- Look at one subtree. -/
theorem represents_plug : Represents tree (plug shape path) rest ↔
    Holds tree.heap (cells (top path) shape+(pathCells (ptr shape) path+rest)) ∧ tree.root = rootPtr (ptr shape) path := by
  rw [← add_assoc,← cells_plug,← ptr_plug]
  exact ⟨fun h => ⟨h.holds,h.root⟩,fun h => ⟨h.1,h.2⟩⟩

section
variable (h : Represents tree (plug (join side color near entry far) path) rest)
include h

theorem Represents.down :
    Represents tree (plug near (⟨color,entry,side,far⟩ :: path)) rest := h

theorem Represents.down_other : Represents tree (plug far (⟨color,entry,side.other,near⟩ :: path)) rest := by
  rw [plug,join_other]
  exact h

end

theorem Represents.up (h : Represents tree (plug near (⟨color,entry,side,far⟩ :: path)) rest) :
    Represents tree (plug (join side color near entry far) path) rest := h

theorem Represents.up_other (h : Represents tree (plug far (⟨color,entry,side.other,near⟩ :: path)) rest) :
    Represents tree (plug (join side color near entry far) path) rest := by
  rw [plug,join_other] at h
  exact h

theorem Represents.read (h : Represents tree (plug (join side color near entry far) path) rest) :
    tree.heap entry.1 = of side (ptr near) (ptr far) (top path) color entry.2 := by
  have hh := (represents_plug.1 h).1
  rw [cells_join,add_assoc] at hh
  exact hh.read

variable {frame : Frame (Nat × κ)}

theorem Represents.read_frame (h : Represents tree (plug shape (frame::path)) rest) : tree.heap frame.entry.1 =
      of frame.side (ptr shape) (ptr frame.sibling) (top path) frame.color frame.entry.2 := h.read

theorem Represents.setColor (h : Represents tree (plug (join side color near entry far) path) rest) (c : Color) :
    Represents (tree.setColor entry.1 c) (plug (join side c near entry far) path) rest := by
  rw [represents_plug,cells_join,ptr_join,add_assoc] at h ⊢
  refine ⟨?_,h.2⟩
  have hh := h.1.modify (Node.setColor c)
  rwa [setColor_of] at hh

theorem Represents.setColor_frame {s : Tree (Nat × κ)}
    (h : Represents tree (plug shape (⟨color,entry,side,s⟩ :: path)) rest) (c : Color) :
    Represents (tree.setColor entry.1 c) (plug shape (⟨c,entry,side,s⟩ :: path)) rest := Represents.setColor h c

theorem setParentOf_holds (h : Holds tree.heap (cells parent shape+rest)) (p : Option Nat) :
    Holds (tree.setParentOf (ptr shape) p).heap (cells p shape+rest) ∧
      (tree.setParentOf (ptr shape) p).root = tree.root := by
  cases shape with
  | nil => exact ⟨h,rfl⟩
  | node color left entry right =>
    refine ⟨?_,rfl⟩
    rw [cells,add_assoc] at h ⊢
    exact h.modify (Node.setParent p)

variable {node : Node κ}

theorem ptr_ne {x : Nat} (h : Holds tree.heap (cells parent shape + ({(x, node)} + rest))) : ptr shape ≠ some x := by
  cases shape with
  | nil => exact nofun
  | node color left entry right =>
    intro he
    have hh : Holds tree.heap ({(entry.1, ⟨ptr left,ptr right,parent,color,entry.2⟩)} + ({(x, node)} +
        (cells (some entry.1) left+cells (some entry.1) right+rest))) := by
      rw [cells] at h
      convert h using 1
      abel
    exact hh.ne (Option.some.inj he)

/-- The node above points to another node. -/
theorem replaceChild_holds {x : Nat} (h : Holds tree.heap (pathCells (some x) path + ({(x, node)} + rest)))
    (hr : tree.root = rootPtr (some x) path) (y : Option Nat) :
    Holds (tree.replaceChild (top path) x y).heap (pathCells y path + ({(x, node)} + rest)) ∧
      (tree.replaceChild (top path) x y).root = rootPtr y path := by
  cases path with
  | nil => exact ⟨h,rfl⟩
  | cons frame path =>
    have hn : ptr frame.sibling ≠ some x := by
      have hh : Holds tree.heap ({(frame.entry.1, of frame.side (some x) (ptr frame.sibling) (top path) frame.color
          frame.entry.2)} + pathCells (some frame.entry.1) path + (cells (some frame.entry.1) frame.sibling +
            ({(x, node)} + rest))) := by
        rw [pathCells] at h
        convert h using 1
        abel
      exact ptr_ne hh.drop
    rw [pathCells,add_assoc] at h ⊢
    have hl : tree.left frame.entry.1 = some x ↔ frame.side = .left := by rw [left,h.read,left_of_eq hn]
    obtain ⟨color,entry,side,s⟩ := frame
    rw [top,replaceChild]
    cases side with
    | left =>
      rw [if_pos (hl.2 rfl)]
      exact ⟨h.modify (Node.setChild .left y),hr⟩
    | right =>
      rw [if_neg (by simp [hl])]
      exact ⟨h.modify (Node.setChild .right y),hr⟩

/-- A rotation turns the subtree and leaves everything else. -/
theorem Represents.rotate {cx cy : Color} {A B C : Tree (Nat × κ)} {x y : Nat × κ}
    (h : Represents tree (plug (join side cx A x (join side cy B y C)) path) rest) :
    ∃ tree', tree.rotate side x.1 = some tree' ∧
      Represents tree' (plug (join side cy (join side cx A x B) y C) path) rest := by
  rw [represents_plug,cells_join,cells_join,ptr_join,ptr_join] at h
  obtain ⟨hh,hr⟩ := h
  -- The cells that change, and those that stay.
  let X (far parent : Option Nat) : Multiset (Nat × Node κ) := {(x.1, of side (ptr A) far parent cx x.2)}
  let Y (near parent : Option Nat) : Multiset (Nat × Node κ) := {(y.1, of side near (ptr C) parent cy y.2)}
  let others := cells (some x.1) A + cells (some y.1) C + rest
  have h₀ : Holds tree.heap (X (some y.1) (top path) + (Y (ptr B) (some x.1) +
      (cells (some y.1) B+pathCells (some x.1) path+others))) := hh.move (by simp only [X,Y,others]; abel)
  have hy : tree.child side.other x.1 = some y.1 := by rw [child,h₀.read,child_other_of]
  have hB : tree.child side y.1 = ptr B := by rw [child,h₀.drop.read,child_of]
  rw [RedBlackTree.rotate,hy]
  dsimp only [Option.bind_eq_bind,Option.bind_some]
  rw [hB]
  -- the inner subtree goes from y to x
  have h₁ : Holds (tree.setChild side.other x.1 (ptr B)).heap (X (ptr B) (top path) + (Y (ptr B) (some x.1) +
      (cells (some y.1) B+pathCells (some x.1) path+others))) := by
    have hm := h₀.modify (Node.setChild side.other (ptr B))
    rwa [setChild_other_of] at hm
  have hr₁ : (tree.setChild side.other x.1 (ptr B)).root = rootPtr (some x.1) path := hr
  generalize tree.setChild side.other x.1 (ptr B) = tree₁ at h₁ hr₁ ⊢
  have hB₁ : tree₁.child side y.1 = ptr B := by rw [child,h₁.drop.read,child_of]
  rw [hB₁]
  obtain ⟨h₂,hr₂⟩ := setParentOf_holds (show Holds tree₁.heap (cells (some y.1) B + (X (ptr B) (top path) +
    (Y (ptr B) (some x.1)+(pathCells (some x.1) path+others)))) from h₁.move (by abel)) (some x.1)
  rw [hr₁] at hr₂
  generalize tree₁.setParentOf (ptr B) (some x.1) = tree₂ at h₂ hr₂ ⊢
  -- y goes below the node above x
  have hp₂ : tree₂.parent x.1 = top path := by rw [parent,h₂.drop.read,parent_of]
  rw [hp₂]
  have h₃ : Holds (tree₂.setParent y.1 (top path)).heap (Y (ptr B) (top path) + (X (ptr B) (top path) +
      (cells (some x.1) B+pathCells (some x.1) path+others))) := by
    have hm := Holds.modify (show Holds tree₂.heap (Y (ptr B) (some x.1) + (X (ptr B) (top path) +
      (cells (some x.1) B+pathCells (some x.1) path+others))) from h₂.move (by abel)) (Node.setParent (top path))
    rwa [setParent_of] at hm
  have hr₃ : (tree₂.setParent y.1 (top path)).root = rootPtr (some x.1) path := hr₂
  generalize tree₂.setParent y.1 (top path) = tree₃ at h₃ hr₃ ⊢
  have hp₃ : tree₃.parent x.1 = top path := by rw [parent,h₃.drop.read,parent_of]
  rw [hp₃]
  obtain ⟨h₄,hr₄⟩ := replaceChild_holds (show Holds tree₃.heap (pathCells (some x.1) path + (X (ptr B) (top path) +
    (Y (ptr B) (top path)+(cells (some x.1) B+others)))) from h₃.move (by abel)) hr₃ (some y.1)
  generalize tree₃.replaceChild (top path) x.1 (some y.1) = tree₄ at h₄ hr₄ ⊢
  -- x goes below y
  refine ⟨_,rfl,represents_plug.2 ⟨?_,?_⟩⟩
  · have h₅ := (show Holds tree₄.heap (Y (ptr B) (top path) + (X (ptr B) (top path) +
      (cells (some x.1) B+pathCells (some y.1) path+others))) from h₄.move (by abel)).modify (Node.setChild side (some x.1))
    rw [setChild_of] at h₅
    have h₆ := (show Holds (tree₄.setChild side y.1 (some x.1)).heap (X (ptr B) (top path) + (Y (some x.1) (top path) +
      (cells (some x.1) B+pathCells (some y.1) path+others))) from h₅.move (by abel)).modify (Node.setParent (some y.1))
    rw [setParent_of] at h₆
    rw [cells_join,cells_join,ptr_join,ptr_join]
    exact h₆.move (by simp only [Y,others]; abel)
  · rw [ptr_join]
    exact hr₄

theorem Represents.drop {cs : Multiset (Nat × Node κ)} (h : Represents tree shape (cs+rest)) :
    Represents tree shape rest :=
  ⟨(h.holds.move (by abel : cs + (RedBlackTree.cells none shape+rest) = _)).drop,h.root⟩

theorem Represents.isBlack (h : Represents tree (plug shape path) rest) :
    tree.isBlack (ptr shape) ↔ shape.color = .black := by
  cases shape with
  | nil => exact ⟨fun _ => rfl,fun _ => rfl⟩
  | node color left entry right =>
    have hr := (show Represents tree (plug (join .left color left entry right) path) rest from h).read
    rw [ptr,RedBlackTree.isBlack,RedBlackTree.color,hr,color_of,decide_eq_true_iff,Base.Tree.color]

section
variable {frame : Frame (Nat × κ)}

section
variable (h : Represents tree (plug shape (frame::path)) rest)
include h

theorem Represents.sibling_ne {x : Nat} (hx : ptr shape = some x) : ptr frame.sibling ≠ some x := by
  cases shape with
  | nil => cases hx
  | node color left entry right =>
    cases hx
    have hh := (represents_plug.1 h).1
    rw [cells,pathCells] at hh
    exact ptr_ne (hh.move (show cells (some frame.entry.1) frame.sibling + ({(entry.1, _)} + (cells (some entry.1) left +
      cells (some entry.1) right + ({(frame.entry.1, _)} + pathCells (some frame.entry.1) path + rest))) = _ by abel))

theorem Represents.side_eq (hn : ptr frame.sibling ≠ ptr shape) :
    (if tree.left frame.entry.1 = ptr shape then Side.left else Side.right) = frame.side := by
  have hl : tree.left frame.entry.1 = ptr shape ↔ frame.side = .left := by
    rw [left,h.read_frame,left_of_eq hn]
  cases hs : frame.side with
  | left => exact if_pos (hl.2 hs)
  | right => exact if_neg fun he => by rw [hl.1 he] at hs; cases hs

theorem Represents.root_ne : tree.root ≠ ptr shape := by
  intro hr
  rw [h.root] at hr
  cases shape with
  | nil =>
    rw [ptr_plug,rootPtr] at hr
    exact rootPtr_ne_none hr
  | node color left entry right =>
    have hrd := (show Represents tree (plug (join .left color left entry right) (frame::path)) rest from h).read
    generalize plug (.node color left entry right) (frame::path) = w at h hr
    cases w with
    | nil => cases hr
    | node color' left' entry' right' =>
      have hrd' := (show Represents tree (plug (join .left color' left' entry' right') []) rest from h).read
      rw [Option.some.inj hr,hrd] at hrd'
      cases congrArg Node.parent hrd'

end

end

/-- A node that is not yet linked goes to an empty place below a node. -/
theorem Represents.attach
    (h : Represents tree (plug .nil (frame::path))
      ({(entry.1, ⟨none,none,some frame.entry.1,color,entry.2⟩)} + rest)) :
    Represents (tree.setChild frame.side frame.entry.1 (some entry.1)) (plug (.node color .nil entry .nil) (frame::path)) rest := by
  obtain ⟨hh,hr⟩ := represents_plug.1 h
  refine represents_plug.2 ⟨?_,hr⟩
  rw [pathCells,cells,ptr,zero_add,add_assoc] at hh
  have hm := hh.modify (Node.setChild frame.side (some entry.1))
  rw [setChild_of] at hm
  rw [top,pathCells]
  simp only [cells,ptr_nil,ptr_node]
  exact hm.move (by abel)

/-- A node with at most one child leaves the tree, and the child takes its place. -/
theorem Represents.unlink (h : Represents tree (plug (join side color .nil entry shape) path) rest) :
    Represents (tree.unlink entry.1 (ptr shape)) (plug shape path)
      ({(entry.1, of side none (ptr shape) (top path) color entry.2)} + rest) := by
  rw [represents_plug,cells_join,ptr_join] at h
  obtain ⟨hh,hr⟩ := h
  rw [cells,ptr,zero_add] at hh
  have hp : tree.parent entry.1 = top path := by
    rw [parent,(hh.move (add_assoc _ _ _).symm).read,parent_of]
  obtain ⟨h₁,hr₁⟩ := setParentOf_holds (show Holds tree.heap (cells (some entry.1) shape +
    ({(entry.1, of side none (ptr shape) (top path) color entry.2)} + (pathCells (some entry.1) path+rest))) from
      hh.move (by abel)) (top path)
  rw [hr] at hr₁
  rw [RedBlackTree.unlink,hp]
  generalize tree.setParentOf (ptr shape) (top path) = tree₁ at h₁ hr₁ ⊢
  have hp₁ : tree₁.parent entry.1 = top path := by rw [parent,h₁.drop.read,parent_of]
  rw [hp₁]
  obtain ⟨h₂,hr₂⟩ := replaceChild_holds (show Holds tree₁.heap (pathCells (some entry.1) path +
    ({(entry.1, of side none (ptr shape) (top path) color entry.2)} + (cells (top path) shape+rest))) from
      h₁.move (by abel)) hr₁ (ptr shape)
  exact represents_plug.2 ⟨h₂.move (by abel),hr₂⟩

private theorem copyLinks_holds {y z : Nat} {o : Node κ} (h : Holds tree.heap ({(y, node)} + ({(z, o)} + rest))) :
    Holds (tree.copyLinks y z).heap ({(y, { o with key := node.key })} + ({(z, o)} + rest)) ∧
      (tree.copyLinks y z).root = tree.root := by
  refine ⟨?_,rfl⟩
  have h₁ : Holds (tree.setParent y (tree.parent z)).heap ({(y, node.setParent o.parent)} + ({(z, o)} + rest)) := by
    rw [parent,h.drop.read]
    exact h.modify _
  rw [copyLinks]
  generalize tree.setParent y (tree.parent z) = tree₁ at h₁ ⊢
  have h₂ : Holds (tree₁.setColor y (tree₁.color z)).heap
      ({(y, (node.setParent o.parent).setColor o.color)} + ({(z, o)} + rest)) := by
    rw [color,h₁.drop.read]
    exact h₁.modify _
  generalize tree₁.setColor y (tree₁.color z) = tree₂ at h₂ ⊢
  have h₃ : Holds (tree₂.setChild .left y (tree₂.left z)).heap
      ({(y, ((node.setParent o.parent).setColor o.color).setChild .left o.left)} + ({(z, o)} + rest)) := by
    rw [left,h₂.drop.read]
    exact h₂.modify _
  generalize tree₂.setChild .left y (tree₂.left z) = tree₃ at h₃ ⊢
  have hr : tree₃.right z = o.right := by rw [right,h₃.drop.read]
  rw [hr]
  exact h₃.modify _

/-- A node outside the tree takes the place of a node of the tree. -/
theorem Represents.splice {left right : Tree (Nat × κ)} {y : Nat × κ}
    (h : Represents tree (plug (.node color left entry right) path) ({(y.1, node)} + rest)) (hk : node.key = y.2) :
    Represents (tree.splice y.1 entry.1) (plug (.node color left y right) path)
      ({(entry.1, ⟨ptr left,ptr right,top path,color,entry.2⟩)} + rest) := by
  rw [represents_plug,cells,ptr] at h
  obtain ⟨hh,hr⟩ := h
  let cl (e : Nat × κ) : Multiset (Nat × Node κ) := {(e.1, ⟨ptr left,ptr right,top path,color,e.2⟩)}
  obtain ⟨h₁,hr₁⟩ := copyLinks_holds (show Holds tree.heap ({(y.1, node)} + (cl entry + (cells (some entry.1) left +
    cells (some entry.1) right + pathCells (some entry.1) path + rest))) from hh.move (by simp only [cl]; abel))
  rw [hk] at h₁
  rw [hr] at hr₁
  rw [RedBlackTree.splice]
  generalize tree.copyLinks y.1 entry.1 = tree₁ at h₁ hr₁ ⊢
  have hl : tree₁.left entry.1 = ptr left := by rw [RedBlackTree.left,h₁.drop.read]
  obtain ⟨h₂,hr₂⟩ := setParentOf_holds (show Holds tree₁.heap (cells (some entry.1) left + (cl entry + (cl y +
    (cells (some entry.1) right+pathCells (some entry.1) path+rest)))) from h₁.move (by simp only [cl]; abel)) (some y.1)
  rw [hr₁] at hr₂
  rw [hl]
  generalize tree₁.setParentOf (ptr left) (some y.1) = tree₂ at h₂ hr₂ ⊢
  have hrg : tree₂.right entry.1 = ptr right := by rw [RedBlackTree.right,h₂.drop.read]
  obtain ⟨h₃,hr₃⟩ := setParentOf_holds (show Holds tree₂.heap (cells (some entry.1) right + (cl entry + (cl y +
    (cells (some y.1) left+pathCells (some entry.1) path+rest)))) from h₂.move (by abel)) (some y.1)
  rw [hr₂] at hr₃
  rw [hrg]
  generalize tree₂.setParentOf (ptr right) (some y.1) = tree₃ at h₃ hr₃ ⊢
  have hp : tree₃.parent entry.1 = top path := by rw [parent,h₃.drop.read]
  obtain ⟨h₄,hr₄⟩ := replaceChild_holds (show Holds tree₃.heap (pathCells (some entry.1) path + (cl entry + (cl y +
    (cells (some y.1) left+cells (some y.1) right+rest)))) from h₃.move (by abel)) hr₃ (some y.1)
  rw [hp]
  refine represents_plug.2 ⟨?_,hr₄⟩
  rw [cells,ptr]
  exact h₄.move (by simp only [cl]; abel)

theorem cells_fst : (cells parent shape).map Prod.fst = (shape.inorder.map Prod.fst : Multiset Nat) := by
  induction shape generalizing parent with
  | nil => rfl
  | node color left entry right ih i =>
    rw [cells,Multiset.map_add,Multiset.map_add,ih,i,inorder,List.map_append,List.map_cons,
      ← Multiset.coe_add,← Multiset.cons_coe,Multiset.map_singleton,Multiset.singleton_add,Multiset.add_cons]

theorem Represents.nodup (h : Represents tree shape rest) : (shape.inorder.map Prod.fst).Nodup := by
  have hds := h.holds.distinct
  rw [Multiset.map_add,cells_fst] at hds
  exact Multiset.coe_nodup.1 (Multiset.nodup_add.1 hds).1

end RedBlackTree
end WebKit.WTF
