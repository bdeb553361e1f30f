import Mathlib.Order.Lattice
import WebKit.Base.ColoredTree

/-! Intervals in a red-black tree ordered by the low endpoint, and the search for the next interval after another one. -/
namespace WebKit.Media.IntervalTree
open Base (Side Color)
open Base.Tree
open List hiding after

/-- The cached maximum of the source is left out: neither the balancing nor the search reads it. -/
structure Interval (α υ : Type) where
  low : α
  high : α
  data : υ
  deriving DecidableEq

/-- A node with all below it, or none. -/
abbrev Node (β : Type) := Base.Tree β

abbrev Path (β : Type) := List (Frame β)

section
variable {β : Type}

def setColor (color : Color) : Node β → Node β
  | .nil => .nil
  | .node _ left x right => .node color left x right

def leftRotate : Node β → Node β
  | .node color a x (.node color' b y c) => .node color' (.node color a x b) y c
  | tree => tree

def rightRotate : Node β → Node β
  | .node color (.node color' a x b) y c => .node color' a x (.node color b y c)
  | tree => tree

def rotate : Side → Node β → Node β
  | .left => leftRotate
  | .right => rightRotate

/-- The children of a node and its entry, the child on the given side first. -/
def children (side : Side) : Node β → Option (Node β × β × Node β)
  | .nil => none
  | .node _ left x right => match side with
    | .left => some (left, x, right)
    | .right => some (right, x, left)

/-- The loop of `insertNode` from a node and the path to it. -/
def insertFixup (x : Node β) : Path β → Node β
  | parent::grandparent::path =>
    if parent.color = .red then
      if grandparent.sibling.color = .red then
        insertFixup (join grandparent.side .red (join parent.side .black x parent.entry parent.sibling) grandparent.entry
          (setColor .black grandparent.sibling)) path
      else
        let below := join parent.side .red x parent.entry parent.sibling
        let below := if parent.side = grandparent.side then below else rotate grandparent.side below
        plug (rotate grandparent.side.other (join grandparent.side .red (setColor .black below) grandparent.entry
          grandparent.sibling)) path
    else plug x (parent::grandparent::path)
  | path => plug x path

/-- Cases 3 and 4 of `deleteFixup`, which end its loop. -/
def deleteRotate (x : Node β) (frame : Frame β) (near : Node β) (w : β) (far : Node β) : Node β :=
  let sibling := if far.color = .black then rotate frame.side.other (join frame.side .red (setColor .black near) w far)
    else join frame.side .black near w far
  match children frame.side sibling with
  | none => join frame.side frame.color x frame.entry sibling
  | some (near, w, far) =>
    rotate frame.side (join frame.side .black x frame.entry (join frame.side frame.color near w (setColor .black far)))

/-- Cases 2 to 4 of `deleteFixup`: the tree below the parent, and whether the loop goes on. -/
def deleteStep (x : Node β) (frame : Frame β) : Node β × Bool :=
  match children frame.side frame.sibling with
  | none => (join frame.side frame.color x frame.entry .nil, false)
  | some (near, w, far) =>
    if near.color = .black ∧ far.color = .black then
      (join frame.side frame.color x frame.entry (join frame.side .red near w far), true)
    else (deleteRotate x frame near w far, false)

def deleteFixup (x : Node β) : Path β → Node β
  | [] => setColor .black x
  | frame::path =>
    if x.color = .red then plug (setColor .black x) (frame::path)
    else if frame.sibling.color = .red then
      match children frame.side frame.sibling with
      | none => plug x (frame::path)
      | some (near, w, far) =>
        -- Case 1. The parent is red now, so the loop ends even after case 2.
        let (below, again) := deleteStep x ⟨.red,frame.entry,frame.side,near⟩
        let path := ⟨.black,w,frame.side,far⟩ :: path
        if again then plug (setColor .black below) path else setColor .black (plug below path)
    else
      let (below, again) := deleteStep x frame
      if again then deleteFixup below path else setColor .black (plug below path)

/-- Down the left children from a node with the given one. -/
def treeMinimum (color : Color) (x : β) (right : Node β) (path : Path β) : Node β → Color × β × Node β × Path β
  | .nil => (color, x, right, path)
  | .node color' left' x' right' => treeMinimum color' x' right' (⟨color,x,.left,right⟩ :: path) left'

/-- Puts the only child of a node in its place. -/
def unlink (color : Color) (x : Node β) (path : Path β) : Node β :=
  if color = .black then deleteFixup x path else plug x path

/-- Deletes the top of the subtree at the end of a path. -/
def deleteNode (path : Path β) : Node β → Node β
  | .nil => plug .nil path
  | .node color .nil _ right => unlink color right path
  | .node color left _ .nil => unlink color left path
  | .node color left _ (.node color' left' x' right') =>
    let (color', y, x, below) := treeMinimum color' x' right' [] left'
    unlink color' x (below ++ ⟨color,y,.right,left⟩ :: path)

@[simp] theorem inorder_setColor (c : Color) (tree : Node β) : (setColor c tree).inorder = tree.inorder := by
  cases tree <;> rfl

@[simp] theorem inorder_rotate (s : Side) (tree : Node β) : (rotate s tree).inorder = tree.inorder := by
  cases s
  · rw [rotate,leftRotate.eq_def]
    split <;> simp [inorder]
  · rw [rotate,rightRotate.eq_def]
    split <;> simp [inorder]

theorem inorder_of_children {s : Side} {tree n f : Node β} {x : β} (h : children s tree = some (n, x, f)) :
    tree.inorder = s.arrange n.inorder x f.inorder := by
  cases tree with
  | nil => cases h
  | node c left y right => cases s <;> cases h <;> rfl

private theorem inorder_insertFixup (x : Node β) (path : Path β) : (insertFixup x path).inorder = (plug x path).inorder := by
  fun_induction insertFixup x path with
  | case1 x p g path _ _ ih =>
    rw [ih,plug,plug]
    refine inorder_plug_congr ?_ _
    simp only [inorder_join,inorder_setColor]
  | case2 x p g path _ _ b b' =>
    refine inorder_plug_congr ?_ _
    have hb : b'.inorder = b.inorder := by
      simp only [b']
      split_ifs
      · rfl
      · exact inorder_rotate _ _
    simp only [inorder_rotate,inorder_join,inorder_setColor,hb,b]
  | case3 => rfl
  | case4 => rfl

private theorem inorder_deleteRotate (x : Node β) (f : Frame β) (n : Node β) (w : β) (fr : Node β) :
    (deleteRotate x f n w fr).inorder =
      f.side.arrange x.inorder f.entry (f.side.arrange n.inorder w fr.inorder) := by
  rw [deleteRotate]
  generalize hs : (if fr.color = .black then _ else _ : Node β) = s
  have ho : s.inorder = f.side.arrange n.inorder w fr.inorder := by
    rw [← hs]
    split_ifs <;> simp only [inorder_rotate,inorder_join,inorder_setColor]
  split
  · rw [inorder_join,ho]
  next h => rw [inorder_rotate,inorder_join,inorder_join,inorder_setColor,← inorder_of_children h,ho]

private theorem inorder_deleteStep (x : Node β) (f : Frame β) :
    (deleteStep x f).1.inorder = (join f.side f.color x f.entry f.sibling).inorder := by
  rw [deleteStep,inorder_join]
  split
  next h =>
    cases hs : f.sibling with
    | nil => rw [inorder_join]
    | node c left y right => cases hsd : f.side <;> simp [hs,hsd,children] at h
  next h =>
    rw [inorder_of_children h]
    split_ifs
    · rw [inorder_join,inorder_join]
    · exact inorder_deleteRotate ..

private theorem inorder_plug_step {x b : Node β} {f : Frame β} {a : Bool} (path : Path β)
    (h : deleteStep x f = (b, a)) : (plug b path).inorder = (plug x (f::path)).inorder :=
  inorder_plug_congr ((congrArg (fun step => step.1.inorder) h).symm.trans (inorder_deleteStep x f)) path

private theorem inorder_plug_children {x n fr : Node β} {f : Frame β} {w : β} (path : Path β)
    (h : children f.side f.sibling = some (n, w, fr)) :
    (plug x (⟨.red,f.entry,f.side,n⟩ :: ⟨.black,w,f.side,fr⟩ :: path)).inorder =
      (plug x (f::path)).inorder := by
  refine inorder_plug_congr ?_ path
  rw [inorder_join,inorder_join,inorder_join,Side.arrange_arrange,inorder_of_children h]

private theorem inorder_deleteFixup (x : Node β) (path : Path β) : (deleteFixup x path).inorder = (plug x path).inorder := by
  fun_induction deleteFixup x path with
  | case1 => exact inorder_setColor ..
  | case2 => exact inorder_plug_congr (inorder_setColor ..) _
  | case3 => rfl
  | case4 x f path _ _ n w fr hc b a hs =>
    rw [← inorder_plug_children path hc,← inorder_plug_step a hs]
    exact inorder_plug_congr (inorder_setColor ..) _
  | case5 x f path _ _ n w fr hc b ag hs a =>
    rw [← inorder_plug_children path hc,← inorder_plug_step a hs]
    exact inorder_setColor ..
  | case6 x f path _ _ b hs ih => rw [ih,inorder_plug_step path hs]
  | case7 x f path _ _ b ag hs => rw [inorder_setColor,inorder_plug_step path hs]

private theorem treeMinimum_spec (c : Color) (z : β) (right left : Node β) (path : Path β) :
    let (_, y, x, path') := treeMinimum c z right path left
    before path' = before path ∧ y :: (x.inorder ++ after path') = left.inorder ++ z :: (right.inorder ++ after path) := by
  fun_induction treeMinimum c z right path left with
  | case1 => exact ⟨rfl,rfl⟩
  | case2 c z right path c' left' x' right' ih =>
    rw [before,Frame.before,append_nil,after,Frame.after] at ih
    rw [inorder,append_assoc]
    exact ih

private theorem inorder_unlink (c : Color) (x : Node β) (path : Path β) :
    (unlink c x path).inorder = before path ++ x.inorder ++ after path := by
  rw [unlink]
  split_ifs
  · rw [inorder_deleteFixup,inorder_plug]
  · exact inorder_plug ..

private theorem inorder_deleteNode (path : Path β) (c : Color) (left : Node β) (z : β) (right : Node β) :
    (deleteNode path (.node c left z right)).inorder = before path ++ (left.inorder ++ right.inorder) ++ after path := by
  cases left with
  | nil => exact inorder_unlink c right path
  | node =>
    cases right with
    | nil =>
      rw [inorder.eq_1,append_nil]
      exact inorder_unlink c _ path
    | node c' left' x' right' =>
      obtain ⟨hb,ha⟩ := treeMinimum_spec c' x' right' left' []
      rw [after,append_nil] at ha
      refine (inorder_unlink ..).trans ?_
      rw [before_append,after_append,hb,before,before,after,Frame.before,Frame.after,inorder.eq_2 c',← ha]
      simp

end

variable {α υ : Type} [LinearOrder α] (z : Interval α υ)

abbrev Intervals (α υ : Type) := Node (Interval α υ)

def treeInsert : Intervals α υ → Path (Interval α υ) → Path (Interval α υ)
  | .nil, path => path
  | .node color left x right, path =>
    if z.low < x.low then treeInsert left (⟨color,x,.left,right⟩ :: path) else treeInsert right (⟨color,x,.right,left⟩ :: path)

def insertNode (tree : Intervals α υ) : Intervals α υ :=
  setColor .black (insertFixup (.node .red .nil z .nil) (treeInsert z tree []))

/-- Both recursive calls search the right subtree. -/
def smallestNodeGreaterThanFrom (interval : Interval α υ) : Intervals α υ → Option (Interval α υ)
  | .nil => none
  | .node _ _ x right =>
    if ¬ interval.high < x.low then smallestNodeGreaterThanFrom interval right
    else (smallestNodeGreaterThanFrom interval right).or (some x)

def nextIntervalAfter (tree : Intervals α υ) (interval : Interval α υ) : Option (Interval α υ) :=
  smallestNodeGreaterThanFrom interval tree

/-- A stored interval with the least low endpoint above a value. -/
def IsNearest (stored : List (Interval α υ)) (high : α) : Option (Interval α υ) → Prop
  | none => ∀ x ∈ stored, ¬ high < x.low
  | some y => y ∈ stored ∧ high < y.low ∧ ∀ x ∈ stored, high < x.low → y.low ≤ x.low

abbrev Sorted (stored : List (Interval α υ)) : Prop := stored.Pairwise (·.low ≤ ·.low)

variable {z} {tree found : Intervals α υ} {path path' : Path (Interval α υ)}

private theorem sorted_treeInsert (h : Sorted (plug tree path).inorder) (hb : ∀ x ∈ before path, x.low ≤ z.low)
    (ha : ∀ x ∈ after path, z.low ≤ x.low) :
    Sorted (before (treeInsert z tree path) ++ z :: after (treeInsert z tree path)) := by
  have ht : Sorted tree.inorder := by
    rw [inorder_plug] at h
    exact (pairwise_append.1 (pairwise_append.1 h).1).2.1
  fun_induction treeInsert z tree path with
  | case1 path =>
    rw [inorder_plug,inorder,append_nil] at h
    obtain ⟨hbf,haf,hle⟩ := pairwise_append.1 h
    exact pairwise_append.2 ⟨hbf,pairwise_cons.2 ⟨ha,haf⟩,fun x hx y hy => by
      rcases mem_cons.1 hy with rfl | hy
      · exact hb x hx
      · exact hle x hx y hy⟩
  | case2 c left x right path hlt ih =>
    obtain ⟨hl,hr,-⟩ := pairwise_append.1 ht
    refine ih h (by simpa [before,Frame.before] using hb) (fun y hy => ?_) hl
    rw [after,Frame.after,mem_append,mem_cons] at hy
    rcases hy with (rfl | hy) | hy
    · exact hlt.le
    · exact hlt.le.trans ((pairwise_cons.1 hr).1 y hy)
    · exact ha y hy
  | case3 c left x right path hlt ih =>
    obtain ⟨hl,hr,hle⟩ := pairwise_append.1 ht
    refine ih h (fun y hy => ?_) (by simpa [after,Frame.after] using ha) (pairwise_cons.1 hr).2
    rw [before,Frame.before,mem_append,mem_append,mem_singleton] at hy
    rcases hy with hy | hy | rfl
    · exact hb y hy
    · exact (hle y hy x mem_cons_self).trans (not_lt.1 hlt)
    · exact not_lt.1 hlt

/-- The search finds the last interval, if that is after the query. -/
theorem next_spec (h : Sorted tree.inorder) (i : Interval α υ) :
    match nextIntervalAfter tree i with
    | none => ∀ x ∈ tree.inorder, ¬ i.high < x.low
    | some y => y ∈ tree.inorder ∧ i.high < y.low ∧ ∀ x ∈ tree.inorder, x.low ≤ y.low := by
  induction tree with
  | nil => exact nofun
  | node c left x right _ ih =>
    obtain ⟨-,hr,hl⟩ := pairwise_append.1 h
    obtain ⟨hx,hr⟩ := pairwise_cons.1 hr
    simp only [nextIntervalAfter,inorder,mem_append,mem_cons] at ih hl ⊢
    rw [smallestNodeGreaterThanFrom]
    cases hn : smallestNodeGreaterThanFrom i right with
    | some y => grind
    | none => split_ifs with hlt <;> grind

variable [DecidableEq υ]

/-- The search for a node, with the path to it. -/
def treeSearchFullComparisons (z : Interval α υ) :
    Intervals α υ → Path (Interval α υ) → Option (Intervals α υ × Path (Interval α υ))
  | .nil, _ => none
  | .node color left x right, path =>
    if z.low < x.low then treeSearchFullComparisons z left (⟨color,x,.left,right⟩ :: path)
    else if x.low < z.low then treeSearchFullComparisons z right (⟨color,x,.right,left⟩ :: path)
    else if z = x then some (.node color left x right, path)
    else (treeSearchFullComparisons z left (⟨color,x,.left,right⟩ :: path)).or
      (treeSearchFullComparisons z right (⟨color,x,.right,left⟩ :: path))

inductive Operation (α υ : Type) where
  | add (data : Interval α υ)
  | remove (data : Interval α υ)
  | clear

def Operation.run (tree : Intervals α υ) : Operation α υ → Intervals α υ
  | add data => insertNode data tree
  | remove data =>
    match treeSearchFullComparisons data tree [] with
    | none => tree
    | some (found, path) => deleteNode path found
  | clear => .nil

private theorem plug_of_search (h : treeSearchFullComparisons z tree path = some (found, path')) :
    plug found path' = plug tree path := by
  fun_induction treeSearchFullComparisons z tree path with
  | case1 => cases h
  | case2 c left x right path _ ih => exact ih h
  | case3 c left x right path _ _ ih => exact ih h
  | case4 =>
    cases h
    rfl
  | case5 c left x right path _ _ _ ih ih' =>
    obtain h | ⟨-,h⟩ := Option.or_eq_some_iff.1 h
    · exact ih h
    · exact ih' h

private theorem sorted_run (h : Sorted tree.inorder) (o : Operation α υ) : Sorted (o.run tree).inorder := by
  cases o with
  | add d =>
    rw [Operation.run,insertNode,inorder_setColor,inorder_insertFixup,inorder_plug,append_assoc]
    exact sorted_treeInsert h nofun nofun
  | remove d =>
    rw [Operation.run]
    split
    · exact h
    next found path hf =>
      rw [show tree = plug found path from (plug_of_search hf).symm,inorder_plug] at h
      cases found with
      | nil => rwa [deleteNode,inorder_plug]
      | node c left x right =>
        rw [inorder_deleteNode]
        refine Pairwise.sublist ?_ h
        exact ((Sublist.refl _).append ((Sublist.refl _).append (sublist_cons_self x _))).append_right _
  | clear => exact .nil

/-- The search finds the nearest later interval exactly if all later intervals start at one place. -/
theorem nextIntervalAfter_nearest_iff (operations : List (Operation α υ)) (interval : Interval α υ) :
    let tree := operations.foldl Operation.run .nil
    IsNearest tree.inorder interval.high (nextIntervalAfter tree interval) ↔
      ∀ x ∈ tree.inorder, ∀ y ∈ tree.inorder, interval.high < x.low → interval.high < y.low → x.low = y.low := by
  intro tree
  have hsr : Sorted tree.inorder :=
    foldlRecOn (motive := fun tree : Intervals α υ => Sorted tree.inorder) operations Operation.run .nil
      fun _ h operation _ => sorted_run h operation
  have hs := next_spec hsr interval
  cases hn : nextIntervalAfter tree interval with
  | none =>
    rw [hn] at hs
    exact iff_of_true hs fun x hx _ _ hlt => absurd hlt (hs x hx)
  | some y =>
    rw [hn] at hs
    obtain ⟨hy,hlt,hle⟩ := hs
    constructor
    · rintro ⟨-,-,hl⟩ a ha b hb hal hbl
      exact ((hle a ha).antisymm (hl a ha hal)).trans ((hle b hb).antisymm (hl b hb hbl)).symm
    · exact fun hsm => ⟨hy,hlt,fun x hx hxl => (hsm y hy x hx hlt hxl).le⟩

theorem nextIntervalAfter_skips :
    let tree := [Operation.add ⟨5,6,()⟩, .add ⟨3,4,()⟩].foldl Operation.run (.nil : Intervals Nat Unit)
    ¬ IsNearest tree.inorder 1 (nextIntervalAfter tree ⟨0,1,()⟩) := by
  intro tree h
  have := h.2.2 ⟨3,4,()⟩ (by decide) (by decide)
  revert this
  decide

end WebKit.Media.IntervalTree
