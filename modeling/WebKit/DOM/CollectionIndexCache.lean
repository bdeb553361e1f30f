import Mathlib.Algebra.Group.Nat.Defs

/-! The index cache of a live collection (CollectionIndexCache.h). An iterator at the end is `none`, and an answer is
`none` where the code would read the node of an end iterator or an entry past the cached list. -/
namespace WebKit.DOM
open List

variable {ι α : Type}

/-- What the cache asks of a collection. -/
structure Collection (ι α : Type) where
  collectionBegin : Option ι
  collectionLast : Option ι
  collectionTraverseForward : Option ι → Nat → Option ι × Nat
  collectionTraverseBackward : Option ι → Nat → Option ι
  collectionCanTraverseBackward : Bool
  node : ι → α

structure CollectionIndexCache (ι α : Type) where
  current : Option ι := none
  currentIndex : Nat := 0
  count : Nat := 0
  cachedList : List α := []
  nodeCountValid : Bool := false
  listValid : Bool := false

namespace CollectionIndexCache

abbrev Answer (ι α : Type) := Option (Option α) × CollectionIndexCache ι α

variable (c : Collection ι α) (cache : CollectionIndexCache ι α)

/-- The loop that fills the cached list, of fewer than 2^32 entries. -/
def appendNodes : Nat → Option ι → List α → List α
  | fuel+1, some current, cachedList =>
    appendNodes fuel (c.collectionTraverseForward (some current) 1).1 (cachedList ++ [c.node current])
  | _, _, cachedList => cachedList

def computeNodeCountUpdatingListCache : Nat × CollectionIndexCache ι α :=
  if c.collectionBegin.isNone then (0, cache)
  else
    let cachedList := appendNodes c (2^32) c.collectionBegin cache.cachedList
    (cachedList.length, { cache with cachedList, listValid := true })

def nodeCount : Nat × CollectionIndexCache ι α :=
  if cache.nodeCountValid then (cache.count, cache)
  else
    let (count, cache) := computeNodeCountUpdatingListCache c cache
    (count, { cache with count, nodeCountValid := true })

/-- `&*m_current` -/
def currentNode : Answer ι α := (cache.current.map fun current => some (c.node current), cache)

/-- The search failed, but the size is now known. -/
def setNodeCount (count : Nat) : Answer ι α :=
  (some none, { cache with count := count % 2^32, nodeCountValid := true })

/-- The walk from the last node, which two functions share. -/
def traverseFromLast (index : Nat) : Answer ι α :=
  let current := if index < cache.count-1 then
    c.collectionTraverseBackward c.collectionLast (cache.count-index-1) else c.collectionLast
  currentNode c { cache with current, currentIndex := index }

def traverseBackwardTo (index : Nat) : Answer ι α :=
  let firstIsCloser := index < cache.currentIndex-index
  if firstIsCloser ∨ !c.collectionCanTraverseBackward then
    let (current, currentIndex) := if index ≠ 0 then
      c.collectionTraverseForward c.collectionBegin index else (c.collectionBegin, 0)
    currentNode c { cache with current, currentIndex }
  else
    let current := c.collectionTraverseBackward cache.current (cache.currentIndex-index)
    currentNode c { cache with current, currentIndex := index }

def traverseForwardTo (index : Nat) : Answer ι α :=
  let lastIsCloser := cache.nodeCountValid ∧ cache.count-index < index-cache.currentIndex
  if lastIsCloser ∧ c.collectionCanTraverseBackward then traverseFromLast c cache index
  else
    let (current, traversedCount) := c.collectionTraverseForward cache.current (index-cache.currentIndex)
    let currentIndex := cache.currentIndex+traversedCount
    let cache := { cache with current, currentIndex }
    if current.isNone then setNodeCount cache (currentIndex+1) else currentNode c cache

def nodeAt (index : Nat) : Answer ι α :=
  if cache.nodeCountValid ∧ cache.count ≤ index then (some none, cache)
  else if cache.listValid then (cache.cachedList[index]?.map some, cache)
  else if cache.current.isSome then
    if cache.currentIndex < index then traverseForwardTo c cache index
    else if index < cache.currentIndex then traverseBackwardTo c cache index
    else currentNode c cache
  else
    let lastIsCloser := cache.nodeCountValid ∧ cache.count-index < index
    if lastIsCloser ∧ c.collectionCanTraverseBackward then traverseFromLast c cache index
    else
      let startIsEnd := c.collectionBegin.isNone
      let (current, currentIndex) := if index ≠ 0 ∧ !startIsEnd then
        c.collectionTraverseForward c.collectionBegin index else (c.collectionBegin, 0)
      let cache := { cache with current, currentIndex }
      if current.isNone then setNodeCount cache (if startIsEnd then 0 else currentIndex+1) else currentNode c cache

def invalidate : CollectionIndexCache ι α :=
  { cache with current := none, nodeCountValid := false, listValid := false, cachedList := [] }

end CollectionIndexCache

/-- Primitives that step along one sequence: forward, reporting the steps made before the end, and backward when allowed. Its
size is an `unsigned`. -/
structure Traversal (ι α : Type) extends Collection ι α where
  iterators : List ι
  fits : iterators.length < 2^32
  begin_eq : collectionBegin = iterators[0]?
  forward_eq {i it} : iterators[i]? = some it → ∀ k,
    collectionTraverseForward (some it) k = (iterators[i+k]?, min k (iterators.length-1-i))
  last_eq : collectionCanTraverseBackward → collectionLast = iterators[iterators.length-1]?
  backward_eq {i it} : collectionCanTraverseBackward → iterators[i]? = some it → ∀ k ≤ i,
    collectionTraverseBackward (some it) k = iterators[i-k]?

namespace Traversal

def nodes (t : Traversal ι α) : List α := t.iterators.map t.node

/-- All that the cache remembers agrees with the sequence. -/
structure Valid (t : Traversal ι α) (cache : CollectionIndexCache ι α) : Prop where
  current : ∀ it ∈ cache.current, t.iterators[cache.currentIndex]? = some it
  count : cache.nodeCountValid → cache.count = t.iterators.length
  list : cache.listValid → cache.nodeCountValid ∧ cache.cachedList = t.nodes
  unlisted : ¬ cache.listValid → cache.cachedList = []

open CollectionIndexCache

/-- The right answer for an index, with a cache that is valid again. -/
def Answers (t : Traversal ι α) (i : Nat) (a : Answer ι α) : Prop := a.1 = some t.nodes[i]? ∧ t.Valid a.2

variable {t : Traversal ι α} {cache : CollectionIndexCache ι α} {i : Nat}

theorem valid_invalidate (t : Traversal ι α) (cache : CollectionIndexCache ι α) : t.Valid (invalidate cache) :=
  ⟨nofun,nofun,nofun,fun _ => rfl⟩

theorem answers_currentNode (h : t.Valid cache) (hi : i < t.iterators.length) :
    t.Answers i (currentNode t.toCollection { cache with current := t.iterators[i]?, currentIndex := i }) := by
  refine ⟨?_,fun _ hm => hm,h.count,h.list,h.unlisted⟩
  simp [currentNode,nodes,hi]

/-- A failed search answers its index, and finds the size. -/
theorem answers_setNodeCount (h : t.Valid cache) (hi : t.iterators.length ≤ i) (j : Nat) :
    t.Answers i (setNodeCount { cache with current := none, currentIndex := j } t.iterators.length) := by
  refine ⟨?_,nofun,fun _ => Nat.mod_eq_of_lt t.fits,fun hl => ⟨rfl,(h.list hl).2⟩,h.unlisted⟩
  simp [setNodeCount,nodes,hi]

theorem answers_traverseFromLast (h : t.Valid cache) (hv : cache.nodeCountValid) (hi : i < cache.count)
    (hb : t.collectionCanTraverseBackward) : t.Answers i (traverseFromLast t.toCollection cache i) := by
  have hn := h.count hv
  have hl := getElem?_eq_getElem (show t.iterators.length-1 < t.iterators.length by omega)
  have he : (if i < cache.count-1 then t.collectionTraverseBackward t.collectionLast (cache.count-i-1)
      else t.collectionLast) = t.iterators[i]? := by
    rw [t.last_eq hb]
    split
    · rw [hl,t.backward_eq hb hl _ (by omega),show t.iterators.length-1-(cache.count-i-1) = i by omega]
    · rw [show i = t.iterators.length-1 by omega]
  rw [traverseFromLast,he]
  exact answers_currentNode h (hn ▸ hi)

/-- A walk from the first node ends at the index, or past the last node. -/
theorem forward_begin (hn : 0 < t.iterators.length) (i : Nat) :
    (if i ≠ 0 then t.collectionTraverseForward t.collectionBegin i else (t.collectionBegin,0)) =
      (t.iterators[i]?, min i (t.iterators.length-1)) := by
  have h0 := getElem?_eq_getElem hn
  rw [t.begin_eq]
  split
  · rw [h0,t.forward_eq h0,Nat.zero_add,Nat.sub_zero]
  next hi => simp [Decidable.not_not.1 hi]

theorem answers_forward (h : t.Valid cache) (hn : 0 < t.iterators.length) (i : Nat) :
    let j := min i (t.iterators.length-1)
    let moved := { cache with current := t.iterators[i]?, currentIndex := j }
    t.Answers i (if t.iterators[i]?.isNone then setNodeCount moved (j+1) else currentNode t.toCollection moved) := by
  intro j moved
  by_cases hi : i < t.iterators.length
  · have hj : j = i := by omega
    simpa [moved,hj,hi] using answers_currentNode h hi
  · have hj : j+1 = t.iterators.length := by omega
    simpa [moved,hj,hi] using answers_setNodeCount h (by omega) j

variable {it : ι} (h : t.Valid cache)

include h

private theorem answers_traverseBackwardTo (hc : cache.current = some it) (hi : i < cache.currentIndex) :
    t.Answers i (traverseBackwardTo t.toCollection cache i) := by
  have he := h.current it hc
  have ⟨hl,_⟩ := List.getElem?_eq_some_iff.1 he
  simp only [traverseBackwardTo]
  split
  · rw [forward_begin (by omega),Nat.min_eq_left (by omega)]
    exact answers_currentNode h (by omega)
  next hb =>
    rw [hc,t.backward_eq (by simp_all) he _ (by omega),show cache.currentIndex-(cache.currentIndex-i) = i by omega]
    exact answers_currentNode h (by omega)

private theorem answers_traverseForwardTo (hc : cache.current = some it) (hn : cache.nodeCountValid → i < cache.count)
    (hi : cache.currentIndex < i) : t.Answers i (traverseForwardTo t.toCollection cache i) := by
  have he := h.current it hc
  have ⟨hl,_⟩ := List.getElem?_eq_some_iff.1 he
  simp only [traverseForwardTo]
  split
  next hb => exact answers_traverseFromLast h hb.1.1 (hn hb.1.1) hb.2
  · simp only [hc,t.forward_eq he,show cache.currentIndex+(i-cache.currentIndex) = i by omega,
      show cache.currentIndex+min (i-cache.currentIndex) (t.iterators.length-1-cache.currentIndex) =
        min i (t.iterators.length-1) by omega]
    exact answers_forward h (by omega) i

private theorem answers_nodeAt (i : Nat) : t.Answers i (nodeAt t.toCollection cache i) := by
  rw [nodeAt]
  split
  next hn => exact ⟨by simp [nodes,← h.count hn.1,hn.2],h⟩
  next hn =>
  have hi : cache.nodeCountValid → i < cache.count := fun hv => by simpa [hv] using hn
  split
  next hl =>
    have ⟨hv,he⟩ := h.list hl
    have hs : i < t.nodes.length := by rw [nodes,length_map,← h.count hv]; exact hi hv
    exact ⟨by simp [he,hs],h⟩
  split
  next hs =>
    have ⟨it,hc⟩ := Option.isSome_iff_exists.1 hs
    split
    next hf => exact answers_traverseForwardTo h hc hi hf
    split
    next hb => exact answers_traverseBackwardTo h hc hb
    · have he := h.current it hc
      have hx : cache.currentIndex = i := by omega
      exact ⟨by simp [currentNode,nodes,hc,← hx,he],h⟩
  simp only
  split
  next hb => exact answers_traverseFromLast h hb.1.1 (hi hb.1.1) hb.2
  rcases Nat.eq_zero_or_pos t.iterators.length with hn | hn
  · have hb : t.collectionBegin = none := by simp [t.begin_eq,hn]
    simpa [hb,hn] using answers_setNodeCount (i := i) h (by omega) 0
  · have hb : t.collectionBegin.isNone = false := by simp [t.begin_eq,hn]
    simp only [hb,Bool.not_false,and_true,forward_begin hn,Bool.false_eq_true,if_false]
    exact answers_forward h hn i

omit h in
private theorem appendNodes_eq (t : Traversal ι α) (f i : Nat) (l : List α) (hf : t.iterators.length ≤ f+i) :
    appendNodes t.toCollection f t.iterators[i]? l = l ++ t.nodes.drop i := by
  induction f generalizing i l with
  | zero => simpa [appendNodes,nodes] using hf
  | succ f ih =>
    by_cases hi : i < t.iterators.length
    · have he := getElem?_eq_getElem hi
      rw [he,appendNodes,t.forward_eq he,ih (i+1) _ (by omega),append_assoc,nodes,← map_drop,← map_drop,
        drop_eq_getElem_cons hi]
      rfl
    · simp [appendNodes,nodes,hi,Nat.le_of_not_lt]

private theorem nodeCount_correct :
    (nodeCount t.toCollection cache).1 = t.nodes.length ∧ t.Valid (nodeCount t.toCollection cache).2 := by
  rw [nodeCount]
  split
  next hv => exact ⟨by simp [nodes,h.count hv],h⟩
  next hv =>
  have hl : ¬ cache.listValid := fun hl => hv (h.list hl).1
  simp only [computeNodeCountUpdatingListCache]
  split
  next hb =>
    have he : t.iterators = [] := by simpa [t.begin_eq] using hb
    exact ⟨by simp [nodes,he],h.current,fun _ => by simp [he],fun hm => absurd hm hl,h.unlisted⟩
  · have ha : appendNodes t.toCollection (2^32) t.collectionBegin cache.cachedList = t.nodes := by
      rw [t.begin_eq,appendNodes_eq t _ 0 _ (by have := t.fits; omega),h.unlisted hl]
      rfl
    rw [ha]
    exact ⟨rfl,h.current,fun _ => by simp [nodes],fun _ => ⟨rfl,rfl⟩,fun hm => absurd rfl hm⟩

/-- A list, stepped along by position. -/
def ofList (l : List α) (fits : l.length < 2^32) : Traversal Nat (Option α) where
  collectionBegin := (range l.length)[0]?
  collectionLast := (range l.length)[l.length-1]?
  collectionTraverseForward it k := (it.bind fun i => (range l.length)[i+k]?, min k (l.length-1-it.getD 0))
  collectionTraverseBackward it k := it.bind fun i => (range l.length)[i-k]?
  collectionCanTraverseBackward := true
  node i := l[i]?
  iterators := range l.length
  fits := by simpa using fits
  begin_eq := rfl
  forward_eq h k := by obtain ⟨_,rfl⟩ := List.getElem?_eq_some_iff.1 h; simp
  last_eq _ := by simp
  backward_eq _ h k _ := by obtain ⟨_,rfl⟩ := List.getElem?_eq_some_iff.1 h; simp

end Traversal

/-- What may happen to a collection; a change of the sequence follows an invalidation. -/
inductive Request (ι α : Type) where
  | nodeAt (index : Nat) | nodeCount | change (collection : Traversal ι α)

inductive Reply (α : Type) where
  | node (node : Option (Option α)) | count (count : Nat) | changed

def serve (t : Traversal ι α) (cache : CollectionIndexCache ι α) : List (Request ι α) → List (Reply α)
  | [] => []
  | .nodeAt index::rest =>
    let (node, cache) := cache.nodeAt t.toCollection index
    .node node::serve t cache rest
  | .nodeCount::rest =>
    let (count, cache) := cache.nodeCount t.toCollection
    .count count::serve t cache rest
  | .change collection::rest => .changed::serve collection cache.invalidate rest

/-- The same requests, answered from the sequence itself. -/
def answer (nodes : List α) : List (Request ι α) → List (Reply α)
  | [] => []
  | .nodeAt index::rest => .node (some nodes[index]?)::answer nodes rest
  | .nodeCount::rest => .count nodes.length::answer nodes rest
  | .change collection::rest => .changed::answer collection.nodes rest

private theorem serve_of_valid {t : Traversal ι α} {cache : CollectionIndexCache ι α} (h : t.Valid cache)
    (rs : List (Request ι α)) : serve t cache rs = answer t.nodes rs := by
  induction rs generalizing t cache with
  | nil => rfl
  | cons r rs ih =>
    cases r with
    | nodeAt i =>
      have ⟨he,hv⟩ := t.answers_nodeAt h i
      simp only [serve,answer,he,ih hv]
    | nodeCount =>
      have ⟨he,hv⟩ := t.nodeCount_correct h
      simp only [serve,answer,he,ih hv]
    | change c => rw [serve,answer,ih (c.valid_invalidate cache)]

/-- Whatever the order of requests, the cache answers each as from the sequence. -/
theorem serve_eq_answer (t : Traversal ι α) (requests : List (Request ι α)) :
    serve t {} requests = answer t.nodes requests :=
  serve_of_valid (t.valid_invalidate {}) requests

example : serve (.ofList [3,5,8] (by decide)) {} [.nodeAt 2,.nodeAt 7,.nodeAt 1,.change (.ofList [4] (by decide)),
    .nodeAt 0,.nodeCount] = [.node (some (some (some 8))),.node (some none),.node (some (some (some 5))),.changed,
    .node (some (some (some 4))),.count 1] := rfl

end WebKit.DOM
