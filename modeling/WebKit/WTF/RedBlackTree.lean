import WebKit.Base.ColoredTree
import WebKit.Base.Heap
import WebKit.Base.Loop

/-! Red-black trees of linked nodes in memory. Functions return none when a null pointer is followed, and loops have a bound
on their rounds. Where the source repeats code with left and right exchanged, the side is a parameter. -/
namespace WebKit.WTF

open Base (Side Color modify loopM)

/-- The color is the low bit of the parent's address in the source. -/
structure Node (κ : Type) where
  left : Option Nat
  right : Option Nat
  parent : Option Nat
  color : Color
  key : κ

namespace Node

variable {κ : Type}

def child (side : Side) (node : Node κ) : Option Nat :=
  match side with
  | .left => node.left
  | .right => node.right

def setChild (side : Side) (child : Option Nat) (node : Node κ) : Node κ :=
  match side with
  | .left => { node with left := child }
  | .right => { node with right := child }

def setParent (parent : Option Nat) (node : Node κ) : Node κ := { node with parent := parent }

def setColor (color : Color) (node : Node κ) : Node κ := { node with color := color }

def reset (node : Node κ) : Node κ := { node with left := none, right := none, parent := none, color := .red }

end Node

structure RedBlackTree (κ : Type) where
  heap : Nat → Node κ
  root : Option Nat

namespace RedBlackTree

section
variable {κ : Type} (tree : RedBlackTree κ)

def left (x : Nat) : Option Nat := (tree.heap x).left

def right (x : Nat) : Option Nat := (tree.heap x).right

def child (side : Side) (x : Nat) : Option Nat := (tree.heap x).child side

def parent (x : Nat) : Option Nat := (tree.heap x).parent

def color (x : Nat) : Color := (tree.heap x).color

def key (x : Nat) : κ := (tree.heap x).key

def setChild (side : Side) (x : Nat) (child : Option Nat) : RedBlackTree κ :=
  { tree with heap := modify tree.heap x (Node.setChild side child) }

def setParent (x : Nat) (parent : Option Nat) : RedBlackTree κ := { tree with heap := modify tree.heap x (Node.setParent parent) }

def setColor (x : Nat) (color : Color) : RedBlackTree κ := { tree with heap := modify tree.heap x (Node.setColor color) }

def setParentOf (x : Option Nat) (parent : Option Nat) : RedBlackTree κ :=
  match x with
  | none => tree
  | some x => tree.setParent x parent

def setColorOf (x : Option Nat) (color : Color) : RedBlackTree κ :=
  match x with
  | none => tree
  | some x => tree.setColor x color

/-- A null pointer counts as black. -/
def isBlack : Option Nat → Bool
  | none => true
  | some x => tree.color x = .black

/-- Make a node's parent, or the root, point to another node. -/
def replaceChild (parent : Option Nat) (x : Nat) (y : Option Nat) : RedBlackTree κ :=
  match parent with
  | none => { tree with root := y }
  | some parent => if tree.left parent = some x then tree.setChild .left parent y else tree.setChild .right parent y

/-- Turn a node down to the given side. -/
def rotate (side : Side) (x : Nat) : Option (RedBlackTree κ) := do
  let y ← tree.child side.other x
  let tree := tree.setChild side.other x (tree.child side y)
  let tree := tree.setParentOf (tree.child side y) (some x)
  let tree := tree.setParent y (tree.parent x)
  let tree := tree.replaceChild (tree.parent x) x (some y)
  let tree := tree.setChild side y (some x)
  return tree.setParent x (some y)

def leftRotate (x : Nat) : Option (RedBlackTree κ) := tree.rotate .left x

def rightRotate (x : Nat) : Option (RedBlackTree κ) := tree.rotate .right x

def treeMinimum (fuel : Nat) : Nat → Option Nat :=
  loopM (fun x =>
    match tree.left x with
    | none => some (.inr x)
    | some child => some (.inl child)) fuel

/-- A round of the successor's loop. -/
def successorStep : Nat × Option Nat → Option ((Nat × Option Nat) ⊕ Option Nat)
  | (_, none) => some (.inr none)
  | (x, some y) => if tree.right y = some x then some (.inl (y, tree.parent y)) else some (.inr (some y))

def successor (fuel : Nat) (x : Nat) : Option (Option Nat) :=
  match tree.right x with
  | some child => (tree.treeMinimum fuel child).map some
  | none => loopM tree.successorStep fuel (x, tree.parent x)

def first (fuel : Nat) : Option (Option Nat) :=
  match tree.root with
  | none => some none
  | some root => (tree.treeMinimum fuel root).map some

def walkStep (fuel : Nat) : List Nat × Option Nat → Option ((List Nat × Option Nat) ⊕ List Nat)
  | (visited, none) => some (.inr visited)
  | (visited, some x) => do
    let next ← tree.successor fuel x
    return .inl (visited ++ [x], next)

/-- The nodes from the first on, by their successors. -/
def walk (fuel : Nat) : Option (List Nat) := do
  let current ← tree.first fuel
  loopM (tree.walkStep fuel) fuel ([], current)

/-- The insertion's second case: a node on the inner side changes places with its parent. -/
def insertInner (side : Side) (x parent : Nat) : Option (RedBlackTree κ × Nat) :=
  if tree.child side.other parent = some x then do
    let tree ← tree.rotate side parent
    return (tree, parent)
  else some (tree, x)

/-- The third case: the grandparent is turned down. -/
def insertOuter (side : Side) (x : Nat) : Option (RedBlackTree κ) := do
  let parent ← tree.parent x
  let tree := tree.setColor parent .black
  let grandparent ← tree.parent parent
  let tree := tree.setColor grandparent .red
  tree.rotate side.other grandparent

def insertStep : RedBlackTree κ × Nat → Option ((RedBlackTree κ × Nat) ⊕ RedBlackTree κ)
  | (tree, x) =>
    if tree.root = some x then some (.inr tree)
    else do
      let parent ← tree.parent x
      if tree.color parent = .black then some (.inr tree)
      else do
        let grandparent ← tree.parent parent
        let side : Side := if tree.left grandparent = some parent then .left else .right
        let y := tree.child side.other grandparent
        if tree.isBlack y then do
          let (tree, x) ← tree.insertInner side x parent
          let tree ← tree.insertOuter side x
          return .inl (tree, x)
        else
          let tree := tree.setColor parent .black
          let tree := tree.setColorOf y .black
          let tree := tree.setColor grandparent .red
          return .inl (tree, grandparent)

/-- The place of a new node, as its parent. -/
def treeInsertPlace [LT κ] [DecidableLT κ] (fuel : Nat) (z : Nat) : Option (Option Nat) :=
  loopM (fun (y, x) =>
    match x with
    | none => some (.inr y)
    | some x => some (.inl (some x, if tree.key z < tree.key x then tree.left x else tree.right x))) fuel (none, tree.root)

def treeInsert [LT κ] [DecidableLT κ] (fuel : Nat) (z : Nat) : Option (RedBlackTree κ) := do
  let y ← tree.treeInsertPlace fuel z
  let tree := tree.setParent z y
  match y with
  | none => return { tree with root := some z }
  | some y => if tree.key z < tree.key y then return tree.setChild .left y (some z) else return tree.setChild .right y (some z)

def insert [LT κ] [DecidableLT κ] (fuel : Nat) (x : Nat) : Option (RedBlackTree κ) := do
  let tree := { tree with heap := modify tree.heap x Node.reset }
  let tree ← tree.treeInsert fuel x
  let tree := tree.setColor x .red
  let tree ← loopM insertStep fuel (tree, x)
  let root ← tree.root
  return tree.setColor root .black

/-- The first case of the repair after a removal: a red sibling. -/
def removeRedSibling (side : Side) (xParent w : Nat) : Option (RedBlackTree κ × Nat) :=
  if tree.color w = .red then do
    let tree := tree.setColor w .black
    let tree := tree.setColor xParent .red
    let tree ← tree.rotate side xParent
    let w ← tree.child side.other xParent
    return (tree, w)
  else some (tree, w)

/-- The third case: the sibling's child on the far side is black. -/
def removeNearRed (side : Side) (xParent w : Nat) : Option (RedBlackTree κ × Nat) :=
  if tree.isBlack (tree.child side.other w) then do
    let near ← tree.child side w
    let tree := tree.setColor near .black
    let tree := tree.setColor w .red
    let tree ← tree.rotate side.other w
    let w ← tree.child side.other xParent
    return (tree, w)
  else some (tree, w)

/-- The fourth case. -/
def removeFarRed (side : Side) (xParent w : Nat) : Option (RedBlackTree κ) :=
  let tree := tree.setColor w (tree.color xParent)
  let tree := tree.setColor xParent .black
  let tree := tree.setColorOf (tree.child side.other w) .black
  tree.rotate side xParent

def removeFixupStep : RedBlackTree κ × Option Nat × Option Nat →
    Option ((RedBlackTree κ × Option Nat × Option Nat) ⊕ (RedBlackTree κ × Option Nat))
  | (tree, x, xParent) =>
    if x ≠ tree.root ∧ tree.isBlack x then do
      let xParent ← xParent
      let side : Side := if x = tree.left xParent then .left else .right
      let w ← tree.child side.other xParent
      let (tree, w) ← tree.removeRedSibling side xParent w
      if tree.isBlack (tree.child side w) ∧ tree.isBlack (tree.child side.other w) then
        let tree := tree.setColor w .red
        return .inl (tree, some xParent, tree.parent xParent)
      else do
        let (tree, w) ← tree.removeNearRed side xParent w
        let tree ← tree.removeFarRed side xParent w
        let root ← tree.root
        return .inl (tree, some root, tree.parent root)
    else some (.inr (tree, x))

def removeFixup (fuel : Nat) (x xParent : Option Nat) : Option (RedBlackTree κ) := do
  let (tree, x) ← loopM removeFixupStep fuel (tree, x, xParent)
  return tree.setColorOf x .black

/-- Take a node with at most one child out of the tree. -/
def unlink (y : Nat) (x : Option Nat) : RedBlackTree κ :=
  let tree := tree.setParentOf x (tree.parent y)
  tree.replaceChild (tree.parent y) y x

/-- Give a node the parent, the color and the children of another one. -/
def copyLinks (y z : Nat) : RedBlackTree κ :=
  let tree := tree.setParent y (tree.parent z)
  let tree := tree.setColor y (tree.color z)
  let tree := tree.setChild .left y (tree.left z)
  tree.setChild .right y (tree.right z)

/-- Put an unlinked node in the place of another one. -/
def splice (y z : Nat) : RedBlackTree κ :=
  let tree := tree.copyLinks y z
  let tree := tree.setParentOf (tree.left z) (some y)
  let tree := tree.setParentOf (tree.right z) (some y)
  tree.replaceChild (tree.parent z) z (some y)

def remove (fuel : Nat) (z : Nat) : Option (RedBlackTree κ) := do
  let y ←
    if tree.left z = none ∨ tree.right z = none then pure z
    else do
      let next ← tree.successor fuel z
      next
  let x := if tree.left y = none then tree.right y else tree.left y
  let xParent := tree.parent y
  let tree := tree.unlink y x
  if y ≠ z then do
    let tree ← if tree.color y = .black then tree.removeFixup fuel x xParent else pure tree
    return tree.splice y z
  else if tree.color y = .black then tree.removeFixup fuel x xParent
  else return tree

def findExact [LT κ] [DecidableLT κ] [DecidableEq κ] (fuel : Nat) (key : κ) : Option (Option Nat) :=
  loopM (fun current =>
    match current with
    | none => some (.inr none)
    | some x =>
      if tree.key x = key then some (.inr (some x))
      else if key < tree.key x then some (.inl (tree.left x))
      else some (.inl (tree.right x))) fuel tree.root

def findLeastGreaterThanOrEqual [LT κ] [DecidableLT κ] [DecidableEq κ] (fuel : Nat) (key : κ) : Option (Option Nat) :=
  loopM (fun (best, current) =>
    match current with
    | none => some (.inr best)
    | some x =>
      if tree.key x = key then some (.inr (some x))
      else if tree.key x < key then some (.inl (best, tree.right x))
      else some (.inl (some x, tree.left x))) fuel (none, tree.root)

def findGreatestLessThanOrEqual [LT κ] [DecidableLT κ] [DecidableEq κ] (fuel : Nat) (key : κ) : Option (Option Nat) :=
  loopM (fun (best, current) =>
    match current with
    | none => some (.inr best)
    | some x =>
      if tree.key x = key then some (.inr (some x))
      else if key < tree.key x then some (.inl (best, tree.left x))
      else some (.inl (some x, tree.right x))) fuel (none, tree.root)

def removeKey [LT κ] [DecidableLT κ] [DecidableEq κ] (fuel : Nat) (key : κ) : Option (RedBlackTree κ × Option Nat) := do
  match ← tree.findExact fuel key with
  | none => return (tree, none)
  | some result =>
    let tree ← tree.remove fuel result
    return (tree, some result)

end
end RedBlackTree
end WebKit.WTF
