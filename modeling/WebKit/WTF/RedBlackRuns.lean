import WebKit.WTF.RedBlackInsert
import WebKit.WTF.RedBlackRemove

/-! Sequences of insertions and removals: the tree stays balanced and ordered, and holds what was inserted and not removed. -/
namespace WebKit.WTF.RedBlackTree
open List

variable {κ : Type}

inductive Operation (κ : Type) where
  | insert (node : Nat) (key : κ)
  | remove (node : Nat)

/-- The inserted and not removed nodes after an operation. -/
def members (entries : List (Nat × κ)) : Operation κ → List (Nat × κ)
  | .insert x key => (x, key) :: entries
  | .remove x => entries.filter (·.1 ≠ x)

/-- Only nodes outside the tree are inserted and only nodes of the tree are removed. -/
def Permitted (entries : List (Nat × κ)) : List (Operation κ) → Prop
  | [] => True
  | .insert x key :: operations => x ∉ entries.map Prod.fst ∧ Permitted (members entries (.insert x key)) operations
  | .remove x :: operations => x ∈ entries.map Prod.fst ∧ Permitted (members entries (.remove x)) operations

theorem length_members_le (es : List (Nat × κ)) (op : Operation κ) : (members es op).length ≤ es.length + 1 := by
  cases op with
  | insert x key => exact le_rfl
  | remove x => exact Nat.le_succ_of_le (length_filter_le _ _)

theorem length_foldl_members_le (es : List (Nat × κ)) (o : List (Operation κ)) :
    (o.foldl members es).length ≤ es.length + o.length := by
  induction o generalizing es with
  | nil => exact le_rfl
  | cons op o ih =>
    have hr := ih (members es op)
    have hf := length_members_le es op
    rw [foldl_cons,length_cons]
    omega

variable [LinearOrder κ]

/-- The key of a node is set before it is inserted. -/
def apply (fuel : Nat) (tree : RedBlackTree κ) : Operation κ → Option (RedBlackTree κ)
  | .insert x key => { tree with heap := Base.modify tree.heap x fun node => { node with key := key } : RedBlackTree κ }.insert fuel x
  | .remove x => tree.remove fuel x

/-- Operations on an empty tree, from any contents of the memory. -/
def run (memory : Nat → Node κ) (fuel : Nat) (operations : List (Operation κ)) : Option (RedBlackTree κ) :=
  operations.foldlM (apply fuel) ⟨memory,none⟩

/-- A balanced and ordered tree with the given nodes. -/
structure Correct (tree : RedBlackTree κ) (whole : Tree (Nat × κ)) (entries : List (Nat × κ)) : Prop where
  represents : Represents tree whole 0
  perm : whole.inorder.Perm entries
  sorted : Sorted whole.inorder
  color : whole.color = .black
  balanced : ∃ height, whole.Balanced height

variable {tree : RedBlackTree κ} {whole : Tree (Nat × κ)} {es : List (Nat × κ)} {fuel : Nat}

section
variable (h : Correct tree whole es)
include h

theorem Correct.insert {x : Nat} (hx : x ∉ es.map Prod.fst) (key : κ)
    (hfl : es.length < fuel) :
    ∃ tree' whole', apply fuel tree (.insert x key) = some tree' ∧ Correct tree' whole' (members es (.insert x key)) := by
  obtain ⟨hg,hbl⟩ := h.balanced
  have hf : x ∉ (cells none whole+0).map Prod.fst := by
    rw [add_zero,cells_fst,Multiset.mem_coe,(h.perm.map Prod.fst).mem_iff]
    exact hx
  have hst : Represents { tree with heap := Base.modify tree.heap x fun node => { node with key := key } } whole 0 := by
    refine ⟨?_,h.represents.root⟩
    exact (h.represents.holds.alloc hf { tree.heap x with key := key }).drop
  obtain ⟨tree',whole',hg',l,l',hi,hr,ho,hn,hs,hb,hbl'⟩ :=
    insert_spec (z := (x, key)) hst hf (by simp [Base.modify]) h.sorted h.color hbl (by rwa [h.perm.length_eq])
  refine ⟨tree',whole',hi,hr,?_,hs,hb,hg',hbl'⟩
  rw [hn,members]
  refine perm_middle.trans (.cons _ ?_)
  rw [← ho]
  exact h.perm

theorem Correct.remove {x : Nat} (hx : x ∈ es.map Prod.fst)
    (hfl : 2*es.length + 1 < fuel) :
    ∃ tree' whole', apply fuel tree (.remove x) = some tree' ∧ Correct tree' whole' (members es (.remove x)) := by
  obtain ⟨hg,hb⟩ := h.balanced
  rw [← (h.perm.map Prod.fst).mem_iff,mem_map] at hx
  obtain ⟨z,hz,rfl⟩ := hx
  obtain ⟨l,l',hi⟩ := append_of_mem hz
  obtain ⟨tree',whole',hr,hrp⟩ := remove_spec h.represents hi h.color hb (by rwa [h.perm.length_eq])
  refine ⟨tree',whole',hr,hrp.represents,?_,?_,hrp.color,hrp.balanced⟩
  · have hf : whole.inorder.filter (·.1 ≠ z.1) = l ++ l' := by
      have hn := h.represents.nodup
      rw [hi,map_append,map_cons] at hn
      have hnt := (nodup_cons.1 (nodup_middle.1 hn)).1
      rw [← map_append] at hnt
      have hk (e : Nat × κ) (he : e ∈ l ++ l') : e.1 ≠ z.1 := fun heq => hnt (heq ▸ mem_map_of_mem he)
      rw [hi,filter_append,filter_cons_of_neg (by simp),← filter_append,filter_eq_self]
      exact fun e he => decide_eq_true (hk e he)
    rw [hrp.inorder,members,← hf]
    exact h.perm.filter _
  · have hs := h.sorted
    rw [hi] at hs
    rw [hrp.inorder]
    exact List.Pairwise.sublist ((sublist_cons_self z l').append_left l) hs

theorem Correct.run (ops : List (Operation κ)) (hp : Permitted es ops)
    (hf : 2*(es.length+ops.length) + 1 < fuel) :
    ∃ tree' whole', ops.foldlM (apply fuel) tree = some tree' ∧ Correct tree' whole' (ops.foldl members es) := by
  induction ops generalizing tree whole es with
  | nil => exact ⟨tree,whole,rfl,h⟩
  | cons op ops ih =>
    rw [length_cons] at hf
    have hs : ∃ tree' whole', apply fuel tree op = some tree' ∧ Correct tree' whole' (members es op) ∧
        Permitted (members es op) ops := by
      cases op with
      | insert x key =>
        obtain ⟨tree',whole',ha,h'⟩ := h.insert hp.1 key (show _ < fuel by omega)
        exact ⟨tree',whole',ha,h',hp.2⟩
      | remove x =>
        obtain ⟨tree',whole',ha,h'⟩ := h.remove hp.1 (show _ < fuel by omega)
        exact ⟨tree',whole',ha,h',hp.2⟩
    obtain ⟨tree₁,whole₁,ha,h₁,hp₁⟩ := hs
    have hl := length_members_le es op
    obtain ⟨tree₂,whole₂,hr,h₂⟩ := ih h₁ hp₁ (by omega)
    refine ⟨tree₂,whole₂,?_,h₂⟩
    rw [foldlM_cons,ha]
    exact hr

end

/-- After any permitted operations the links represent a balanced tree of the inserted and not removed nodes with a black root,
the walk by successors visits them in the order of their keys, and the searches are right. -/
theorem run_correct (memory : Nat → Node κ) (operations : List (Operation κ)) (hpermitted : Permitted [] operations) (fuel : Nat)
    (hfuel : 2*operations.length + 1 < fuel) :
    ∃ tree whole height, run memory fuel operations = some tree ∧ Represents tree whole 0 ∧
      whole.inorder.Perm (operations.foldl members []) ∧ whole.color = .black ∧ whole.Balanced height ∧
      tree.walk fuel = some (whole.inorder.map Prod.fst) ∧ whole.inorder.Pairwise (fun a b => a.2 ≤ b.2) ∧
      ∀ key, (∃ result, tree.findExact fuel key = some result ∧ IsExact whole.inorder key result) ∧
        (∃ result, tree.findLeastGreaterThanOrEqual fuel key = some result ∧
          IsLeastGreaterThanOrEqual whole.inorder key result) ∧
        ∃ result, tree.findGreatestLessThanOrEqual fuel key = some result ∧
          IsGreatestLessThanOrEqual whole.inorder key result := by
  have he : Correct (⟨memory,none⟩ : RedBlackTree κ) .nil [] :=
    ⟨⟨⟨nodup_nil,nofun⟩,rfl⟩,.refl _,List.Pairwise.nil,rfl,0,rfl⟩
  obtain ⟨tree,whole,hr,h⟩ := he.run operations hpermitted (by simpa using hfuel)
  obtain ⟨height,hb⟩ := h.balanced
  have hl : whole.inorder.length < fuel := by
    have hle := length_foldl_members_le [] operations
    rw [length_nil] at hle
    rw [h.perm.length_eq]
    omega
  exact ⟨tree,whole,height,hr,h.represents,h.perm,h.color,hb,walk_spec h.represents hl,h.sorted,
    fun key => ⟨findExact_spec h.represents h.sorted hl key,findLeastGreaterThanOrEqual_spec h.represents h.sorted hl key,
      findGreatestLessThanOrEqual_spec h.represents h.sorted hl key⟩⟩

theorem run_correct_equal_keys : ∃ tree whole height, run (fun _ => ⟨none,none,none,.black,0⟩) 12
        [.insert 0 5, .insert 1 3, .insert 2 5, .insert 3 5, .remove 0] = some tree ∧ Represents tree whole 0 ∧
      whole.inorder.Perm ([.insert 0 5, .insert 1 3, .insert 2 5, .insert 3 5, .remove 0].foldl members []) ∧ whole.color = .black ∧
      whole.Balanced height ∧ tree.walk 12 = some (whole.inorder.map Prod.fst) ∧
      whole.inorder.Pairwise (fun a b => a.2 ≤ b.2) ∧
      ∀ key, (∃ result, tree.findExact 12 key = some result ∧ IsExact whole.inorder key result) ∧
        (∃ result, tree.findLeastGreaterThanOrEqual 12 key = some result ∧
          IsLeastGreaterThanOrEqual whole.inorder key result) ∧
        ∃ result, tree.findGreatestLessThanOrEqual 12 key = some result ∧
          IsGreatestLessThanOrEqual whole.inorder key result :=
  run_correct _ _ (by simp [Permitted,members]) 12 (by decide)

/-- Removing by key removes some node with the key. -/
theorem Correct.removeKey (h : Correct tree whole es) (key : κ) (hfl : 2*es.length + 1 < fuel) :
    ∃ tree' whole' r, tree.removeKey fuel key = some (tree', r) ∧ IsExact es key r ∧
      Correct tree' whole' (es.filter (some ·.1 ≠ r)) := by
  obtain ⟨r,hf,hex⟩ := findExact_spec h.represents h.sorted (show _ < fuel by rw [h.perm.length_eq]; omega) key
  rw [RedBlackTree.removeKey,hf]
  cases r with
  | none =>
    refine ⟨tree,whole,none,rfl,fun e he => hex e (h.perm.mem_iff.2 he),?_⟩
    rwa [filter_eq_self.2 (by simp)]
  | some a =>
    obtain ⟨e,he,rfl,hk⟩ := hex
    have hm := h.perm.mem_iff.1 he
    obtain ⟨tree',whole',hr,h'⟩ := h.remove (mem_map_of_mem hm) hfl
    refine ⟨tree',whole',some e.1,?_,⟨e,hm,rfl,hk⟩,?_⟩
    · rw [apply] at hr
      dsimp only [Option.bind_eq_bind,Option.bind_some]
      rw [hr]
      rfl
    · rw [members] at h'
      simpa using h'

/-- After any permitted operations, removing by key leaves a correct tree of the other nodes. -/
theorem run_removeKey (memory : Nat → Node κ) (operations : List (Operation κ)) (hpermitted : Permitted [] operations)
    (key : κ) (fuel : Nat) (hfuel : 2*operations.length + 1 < fuel) :
    ∃ tree tree' whole result, run memory fuel operations = some tree ∧ tree.removeKey fuel key = some (tree', result) ∧
      IsExact (operations.foldl members []) key result ∧
        Correct tree' whole ((operations.foldl members []).filter (some ·.1 ≠ result)) := by
  have he : Correct (⟨memory,none⟩ : RedBlackTree κ) .nil [] :=
    ⟨⟨⟨nodup_nil,nofun⟩,rfl⟩,.refl _,List.Pairwise.nil,rfl,0,rfl⟩
  have hl := length_foldl_members_le [] operations
  rw [length_nil] at hl
  obtain ⟨tree,whole,hr,h⟩ := he.run operations hpermitted (by simpa using hfuel)
  obtain ⟨tree',whole',result,hk,hx,h'⟩ := h.removeKey key (show _ < fuel by omega)
  exact ⟨tree,tree',whole',result,hr,hk,hx,h'⟩

theorem run_removeKey_equal_keys : ∃ tree tree' whole result,
    run (fun _ => ⟨none,none,none,.black,0⟩) 6 [.insert 0 5, .insert 1 5] = some tree ∧
      tree.removeKey 6 5 = some (tree', result) ∧ IsExact ([.insert 0 5, .insert 1 5].foldl members []) 5 result ∧
        Correct tree' whole (([.insert 0 5, .insert 1 5].foldl members []).filter (some ·.1 ≠ result)) :=
  run_removeKey _ _ (by simp [Permitted,members]) 5 6 (by decide)

end WebKit.WTF.RedBlackTree
