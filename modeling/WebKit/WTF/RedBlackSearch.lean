import WebKit.WTF.RedBlackMemory

/-! Searching in a red-black tree and walking through it. -/
namespace WebKit.WTF.RedBlackTree
open Base.Tree RedBlackTree List Nat

open Base (Side Color Holds loopM loopM_spec loopM_eq)
open Base.Tree (Frame join plug before after)

variable {κ : Type} {tree : RedBlackTree κ} {color : Color} {shape left right whole : Tree (Nat × κ)}
  {path : List (Frame (Nat × κ))} {rest : Multiset (Nat × Node κ)} {entry : Nat × κ} {fuel : Nat}

theorem Represents.read_node (h : Represents tree (plug (.node color left entry right) path) rest) :
    tree.heap entry.1 = ⟨ptr left,ptr right,top path,color,entry.2⟩ :=
  (show Represents tree (plug (join .left color left entry right) path) rest from h).read

/-- The first node of a subtree. -/
theorem treeMinimum_spec (h : Represents tree (plug shape path) rest) {a : Nat} (ha : ptr shape = some a)
    (hf : shape.inorder.length < fuel) :
    ∃ color entry right bl, tree.treeMinimum fuel a = some entry.1 ∧ shape = plug (.node color .nil entry right) bl ∧
      before bl = [] := by
  have hl : ∃ b, tree.treeMinimum fuel a = some b ∧ ∃ color entry right bl, b = entry.1 ∧
      shape = plug (.node color .nil entry right) bl ∧ before bl = [] := by
    refine loopM_spec (I := fun k b => ∃ sub bl, shape = plug sub bl ∧ before bl = [] ∧ ptr sub = some b ∧
      sub.inorder.length ≤ k) ?_ ⟨shape,[],rfl,rfl,ha,le_rfl⟩ hf
    rintro k b ⟨sub,bl,rfl,hbf,hp,hk⟩
    cases sub with
    | nil => cases hp
    | node color left entry right =>
      cases hp
      rw [← plug_append] at h
      rw [RedBlackTree.left,h.read_node]
      cases left with
      | nil => exact .inr ⟨_,rfl,color,entry,right,bl,rfl,rfl,hbf⟩
      | node c l e r =>
        rw [inorder,length_append,length_cons] at hk
        refine .inl ⟨e.1,(node c l e r).inorder.length,rfl,by omega,.node c l e r,⟨color,entry,.left,right⟩ :: bl,
          rfl,?_,rfl,le_rfl⟩
        rw [before,hbf]
        rfl
  obtain ⟨b,hb,color,entry,right,bl,rfl,hs,hbf⟩ := hl
  exact ⟨color,entry,right,bl,hb,hs,hbf⟩

private theorem climb_spec {a : Nat} (h : Represents tree whole rest) (hw : whole = plug shape path) (ha : ptr shape = some a)
    (hf : path.length < fuel) :
    loopM tree.successorStep fuel (a, top path) = some ((after path).head?.map Prod.fst) := by
  refine loopM_eq (I := fun k s => ∃ sub up, whole = plug sub up ∧ ptr sub = some s.1 ∧ s.2 = top up ∧
    after up = after path ∧ up.length ≤ k) ?_ ⟨shape,path,hw,ha,rfl,rfl,le_rfl⟩ hf
  rintro k ⟨x,y⟩ ⟨sub,up,rfl,hp,rfl,haf,hk⟩
  cases up with
  | nil => exact .inr (by rw [← haf]; rfl)
  | cons f up =>
    obtain ⟨color,entry,sd,sibling⟩ := f
    have hr := h.read_frame
    rw [top,successorStep]
    cases sd with
    | left =>
      have hrg : tree.right entry.1 = ptr sibling := congrArg Node.right hr
      refine .inr ?_
      rw [if_neg (hrg ▸ h.sibling_ne hp),← haf]
      rfl
    | right =>
      have hrg : tree.right entry.1 = some x := (congrArg Node.right hr).trans hp
      refine .inl ⟨(entry.1, top up),up.length,?_,hk,_,up,rfl,ptr_join,rfl,haf,le_rfl⟩
      rw [if_pos hrg,parent,hr]
      rfl

/-- The successor is the next node in order. -/
theorem successor_spec (h : Represents tree (plug (.node color left entry right) path) rest)
    (hf : (plug (.node color left entry right) path).inorder.length < fuel) :
    tree.successor fuel entry.1 = some ((right.inorder ++ after path).head?.map Prod.fst) := by
  have hl := length_inorder_plug (.node color left entry right) path
  rw [inorder,length_append,length_cons] at hl
  rw [successor,RedBlackTree.right,h.read_node]
  cases right with
  | nil =>
    rw [parent,h.read_node]
    exact climb_spec h rfl rfl (by omega)
  | node c l e r =>
    have hr : Represents tree (plug (.node c l e r) (⟨color,entry,.right,left⟩ :: path)) rest := h
    obtain ⟨_,f,_,b,hm,hs,hb⟩ := treeMinimum_spec hr rfl (show _ < fuel by omega)
    dsimp only [ptr_node]
    rw [hm,hs,inorder_plug,hb]
    rfl

private theorem first_spec (h : Represents tree whole rest) (hf : whole.inorder.length < fuel) :
    tree.first fuel = some (whole.inorder.head?.map Prod.fst) := by
  rw [first,h.root]
  cases whole with
  | nil => rfl
  | node c l e r =>
    obtain ⟨_,first,_,b,hm,hs,hb⟩ :=
      treeMinimum_spec (show Represents tree (plug (.node c l e r) []) rest from h) rfl hf
    dsimp only [ptr_node]
    rw [hm,hs,inorder_plug,hb]
    rfl

theorem inorder_after (h : Represents tree (plug (.node color left entry right) path) rest) {l l' : List (Nat × κ)}
    (hi : (plug (.node color left entry right) path).inorder = l ++ entry::l') :
    l = before path ++ left.inorder ∧ l' = right.inorder ++ after path := by
  have hn := (List.Nodup.of_map _ h.nodup)
  have hs : (plug (.node color left entry right) path).inorder =
      (before path ++ left.inorder) ++ entry :: (right.inorder ++ after path) := by
    rw [inorder_plug,inorder]
    simp
  rw [hi] at hs hn
  have hnt := (nodup_cons.1 (nodup_middle.1 hn)).1
  rw [mem_append,not_or] at hnt
  obtain ⟨hl,-,hl'⟩ := (append_cons_inj_of_notMem hnt.1 hnt.2).1 hs
  exact ⟨hl,hl'⟩

/-- Walking by successors visits the nodes in order. -/
theorem walk_spec (h : Represents tree whole rest) (hf : whole.inorder.length < fuel) :
    tree.walk fuel = some (whole.inorder.map Prod.fst) := by
  rw [walk,first_spec h hf]
  refine loopM_eq (I := fun k s => ∃ sn a, whole.inorder = sn ++ a ∧ s.1 = sn.map Prod.fst ∧
    s.2 = a.head?.map Prod.fst ∧ a.length ≤ k) ?_ ⟨[],whole.inorder,rfl,rfl,rfl,le_rfl⟩ hf
  rintro k ⟨v,c⟩ ⟨sn,a,hi,rfl,rfl,hk⟩
  cases a with
  | nil =>
    rw [hi,append_nil]
    exact .inr rfl
  | cons entry a =>
    obtain ⟨color,left,right,path,rfl⟩ := exists_plug
      (show entry ∈ whole.inorder by rw [hi]; exact mem_append_right _ mem_cons_self)
    obtain ⟨-,ha⟩ := inorder_after h hi
    refine .inl ⟨(sn.map Prod.fst ++ [entry.1], a.head?.map Prod.fst),a.length,?_,hk,sn ++ [entry],a,?_,?_,
      rfl,le_rfl⟩
    · rw [head?_cons,Option.map_some,walkStep,successor_spec h hf,ha]
      rfl
    · rw [hi,append_assoc,singleton_append]
    · rw [map_append,map_singleton]

theorem read_search (h : Represents tree (plug (.node color left entry right) path) rest) :
    tree.key entry.1 = entry.2 ∧ tree.left entry.1 = ptr left ∧ tree.right entry.1 = ptr right :=
  ⟨congrArg Node.key h.read_node,congrArg Node.left h.read_node,congrArg Node.right h.read_node⟩

theorem entry_mem : entry ∈ (plug (.node color left entry right) path).inorder := by
  rw [inorder_plug,inorder]
  simp

theorem mem_plug_nil {e : Nat × κ} : e ∈ (plug .nil path).inorder ↔ e ∈ before path ∨ e ∈ after path := by
  rw [inorder_plug,inorder,append_nil,mem_append]

section
variable [LinearOrder κ] {P Q : κ → Prop} {key : κ}

def Sorted (entries : List (Nat × κ)) : Prop := entries.Pairwise fun a b => a.2 ≤ b.2

theorem Sorted.node (h : Sorted (plug (.node color left entry right) path).inorder) :
    (∀ e ∈ left.inorder, e.2 ≤ entry.2) ∧ ∀ e ∈ right.inorder, entry.2 ≤ e.2 := by
  rw [inorder_plug,inorder,Sorted] at h
  obtain ⟨-,hr,hl⟩ := pairwise_append.1 (pairwise_append.1 (pairwise_append.1 h).1).2.1
  exact ⟨fun e he => hl e he entry mem_cons_self,(pairwise_cons.1 hr).1⟩

/-- A path with keys of one kind before it and keys of another kind after it. -/
structure Between (P Q : κ → Prop) (path : List (Frame (Nat × κ))) : Prop where
  before : ∀ e ∈ before path, P e.2
  after : ∀ e ∈ after path, Q e.2

section
variable (h : Between P Q path) (hsr : Sorted (plug (.node color left entry right) path).inorder)
include h hsr

theorem Between.goLeft
    (hQ : ∀ a b, a ≤ b → Q a → Q b) (hen : Q entry.2) : Between P Q (⟨color,entry,.left,right⟩ :: path) := by
  refine ⟨fun e he => ?_,fun e he => ?_⟩
  · rw [Base.Tree.before,Frame.before,append_nil] at he
    exact h.before e he
  · rw [Base.Tree.after,Frame.after,mem_append,mem_cons] at he
    obtain (rfl | he) | he := he
    · exact hen
    · exact hQ _ _ (hsr.node.2 e he) hen
    · exact h.after e he

theorem Between.goRight
    (hP : ∀ a b, a ≤ b → P b → P a) (hen : P entry.2) : Between P Q (⟨color,entry,.right,left⟩ :: path) := by
  refine ⟨fun e he => ?_,fun e he => ?_⟩
  · rw [Base.Tree.before,Frame.before,mem_append,mem_append,mem_singleton] at he
    obtain he | he | rfl := he
    · exact h.before e he
    · exact hP _ _ (hsr.node.1 e he) hen
    · exact hen
  · exact h.after e he

end

theorem Between.goLeft_lt (h : Between P (key < ·) path) (hsr : Sorted (plug (.node color left entry right) path).inorder)
    (hl : key < entry.2) : Between P (key < ·) (⟨color,entry,.left,right⟩ :: path) :=
  h.goLeft hsr (fun _ _ hle hl => hl.trans_le hle) hl

/-- A node with the key, or null when there is none. -/
def IsExact (entries : List (Nat × κ)) (key : κ) : Option Nat → Prop
  | none => ∀ e ∈ entries, e.2 ≠ key
  | some a => ∃ e ∈ entries, e.1 = a ∧ e.2 = key

/-- A node with the least key from the given one on, or null. -/
def IsLeastGreaterThanOrEqual (entries : List (Nat × κ)) (key : κ) : Option Nat → Prop
  | none => ∀ e ∈ entries, e.2 < key
  | some a => ∃ e ∈ entries, e.1 = a ∧ key ≤ e.2 ∧ ∀ e' ∈ entries, key ≤ e'.2 → e.2 ≤ e'.2

/-- A node with the greatest key up to the given one, or null. -/
def IsGreatestLessThanOrEqual (entries : List (Nat × κ)) (key : κ) : Option Nat → Prop
  | none => ∀ e ∈ entries, key < e.2
  | some a => ∃ e ∈ entries, e.1 = a ∧ e.2 ≤ key ∧ ∀ e' ∈ entries, e'.2 ≤ key → e'.2 ≤ e.2

section
variable {σ : Type} {step : σ → Option (σ ⊕ Option Nat)}

/-- Smaller keys lie before the path and greater ones after it, so the key can only be below. -/
theorem search_spec (h : Represents tree whole rest) (hsr : Sorted whole.inorder) (hf : whole.inorder.length < fuel)
    (key : κ) (st : List (Frame (Nat × κ)) → Option Nat → σ) {Found : Option Nat → Prop}
    (hnl : ∀ path, whole = plug .nil path → Between (· < key) (key < ·) path → ∃ r,
      step (st path none) = some (.inr r) ∧ Found r)
    (hn : ∀ color left entry right path, whole = plug (.node color left entry right) path →
      (key < entry.2 → step (st path (some entry.1)) = some (.inl (st (⟨color,entry,.left,right⟩ :: path) (ptr left)))) ∧
      (entry.2 < key → step (st path (some entry.1)) = some (.inl (st (⟨color,entry,.right,left⟩ :: path) (ptr right)))) ∧
      (entry.2 = key → step (st path (some entry.1)) = some (.inr (some entry.1)) ∧ Found (some entry.1))) :
    ∃ r, loopM step fuel (st [] tree.root) = some r ∧ Found r := by
  refine loopM_spec (I := fun k s => ∃ sub path, whole = plug sub path ∧ s = st path (ptr sub) ∧ sub.inorder.length ≤ k ∧
    Between (· < key) (key < ·) path) ?_ ⟨whole,[],rfl,congrArg _ h.root,le_rfl,nofun,nofun⟩ hf
  rintro k s ⟨sub,path,rfl,rfl,hk,hb⟩
  cases sub with
  | nil => exact .inr (hnl path rfl hb)
  | node color left entry right =>
    rw [inorder,length_append,length_cons] at hk
    obtain ⟨hl,hr,he⟩ := hn color left entry right path rfl
    obtain hlt | heq | hg := lt_trichotomy key entry.2
    · exact .inl ⟨_,left.inorder.length,hl hlt,by omega,left,_,rfl,rfl,le_rfl,hb.goLeft_lt hsr hlt⟩
    · exact .inr ⟨_,he heq.symm⟩
    · exact .inl ⟨_,right.inorder.length,hr hg,by omega,right,_,rfl,rfl,le_rfl,
        hb.goRight hsr (fun _ _ hle hlt => hle.trans_lt hlt) hg⟩

end

section
variable (h : Represents tree whole rest) (hsr : Sorted whole.inorder) (hf : whole.inorder.length < fuel)
include h hsr hf

theorem findExact_spec (key : κ) : ∃ result, tree.findExact fuel key = some result ∧ IsExact whole.inorder key result := by
  refine search_spec h hsr hf key (fun _ c => c) ?_ ?_
  · rintro path rfl hb
    refine ⟨none,rfl,fun e he => ?_⟩
    obtain he | he := mem_plug_nil.1 he
    · exact (hb.before e he).ne
    · exact (hb.after e he).ne'
  · rintro color left entry right path rfl
    obtain ⟨hk,hl,hr⟩ := read_search h
    dsimp only
    rw [hk,hl,hr]
    exact ⟨fun hlt => by rw [if_neg hlt.ne',if_pos hlt],fun hg => by rw [if_neg hg.ne,if_neg hg.not_gt],
      fun heq => ⟨if_pos heq,entry,entry_mem,rfl,heq⟩⟩

/-- The best node so far is the first one after the path. -/
theorem findLeastGreaterThanOrEqual_spec (key : κ) :
    ∃ result, tree.findLeastGreaterThanOrEqual fuel key = some result ∧
      IsLeastGreaterThanOrEqual whole.inorder key result := by
  refine search_spec h hsr hf key (fun path c => ((after path).head?.map Prod.fst, c)) ?_ ?_
  · rintro path rfl hbt
    refine ⟨_,rfl,?_⟩
    cases ha : after path with
    | nil =>
      intro e he
      obtain he | he := mem_plug_nil.1 he
      · exact hbt.before e he
      · rw [ha] at he
        cases he
    | cons b a =>
      have hb : b ∈ after path := ha ▸ mem_cons_self
      refine ⟨b,mem_plug_nil.2 (.inr hb),rfl,(hbt.after b hb).le,fun e he hle => ?_⟩
      obtain he | he := mem_plug_nil.1 he
      · exact absurd (hbt.before e he) hle.not_gt
      · rw [inorder_plug,ha,Sorted] at hsr
        rw [ha] at he
        obtain rfl | he := mem_cons.1 he
        · exact le_rfl
        · exact (pairwise_cons.1 (pairwise_append.1 hsr).2.1).1 e he
  · rintro color left entry right path rfl
    obtain ⟨hk,hl,hr⟩ := read_search h
    dsimp only
    rw [hk,hl,hr]
    refine ⟨fun hlt => ?_,fun hg => ?_,fun heq => ⟨if_pos heq,entry,entry_mem,rfl,heq.ge,fun _ _ hle => heq.trans_le hle⟩⟩
    · rw [if_neg hlt.ne',if_neg hlt.not_gt]
      rfl
    · rw [if_neg hg.ne,if_pos hg]
      rfl

/-- The best node so far is the last one before the path. -/
theorem findGreatestLessThanOrEqual_spec (key : κ) :
    ∃ result, tree.findGreatestLessThanOrEqual fuel key = some result ∧
      IsGreatestLessThanOrEqual whole.inorder key result := by
  refine search_spec h hsr hf key (fun path c => ((before path).getLast?.map Prod.fst, c)) ?_ ?_
  · rintro path rfl hbt
    refine ⟨_,rfl,?_⟩
    obtain hbf | ⟨b,bs,hbf⟩ := eq_nil_or_concat (before path)
    · rw [hbf]
      intro e he
      obtain he | he := mem_plug_nil.1 he
      · rw [hbf] at he
        cases he
      · exact hbt.after e he
    · rw [concat_eq_append] at hbf
      rw [hbf,getLast?_append,getLast?_singleton]
      have hb : bs ∈ before path := by simp [hbf]
      refine ⟨bs,mem_plug_nil.2 (.inl hb),rfl,(hbt.before bs hb).le,fun e he hle => ?_⟩
      obtain he | he := mem_plug_nil.1 he
      · rw [inorder_plug,hbf,Sorted] at hsr
        rw [hbf,mem_append,mem_singleton] at he
        obtain he | rfl := he
        · have hp := (pairwise_append.1 (pairwise_append.1 (pairwise_append.1 hsr).1).1).2.2
          exact hp e he bs mem_cons_self
        · exact le_rfl
      · exact absurd (hbt.after e he) hle.not_gt
  · rintro color left entry right path rfl
    obtain ⟨hk,hl,hr⟩ := read_search h
    dsimp only
    rw [hk,hl,hr]
    refine ⟨fun hlt => ?_,fun hg => ?_,fun heq => ⟨if_pos heq,entry,entry_mem,rfl,heq.le,fun _ _ hle => hle.trans heq.ge⟩⟩
    · rw [if_neg hlt.ne',if_pos hlt,before,Frame.before,append_nil]
    · rw [if_neg hg.ne,if_neg hg.not_gt,before,Frame.before,← append_assoc,getLast?_append,
        getLast?_singleton]
      rfl

end

end

end WebKit.WTF.RedBlackTree
