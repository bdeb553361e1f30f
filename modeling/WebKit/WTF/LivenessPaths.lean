import WebKit.WTF.Liveness

/-! What liveness means, by paths through the defs and uses of the blocks, and sets of live indices that solve its equations. -/
namespace WebKit.WTF.Liveness

/-- What happens along a path. -/
inductive Event where
  | defs (block instBoundaryIndex : Nat)
  | uses (block instBoundaryIndex : Nat)

section
variable (cfg : CFG) (adapter : Adapter)

inductive Step : Event → Event → Prop where
  | boundary (block i : Nat) : Step (.defs block i) (.uses block i)
  | instruction {block i : Nat} (hi : i < adapter.blockSize block) : Step (.uses block i) (.defs block (i+1))
  | edge {block successor : Nat} (h : successor ∈ cfg.successors block) :
    Step (.uses block (adapter.blockSize block)) (.defs successor 0)

def Defines (index : Nat) : Event → Prop
  | .defs block i => index ∈ adapter.defs block i
  | .uses _ _ => False

def Uses (index : Nat) : Event → Prop
  | .defs _ _ => False
  | .uses block i => index ∈ adapter.uses block i

/-- Some path reaches a use before any def. -/
def Live (index : Nat) (start : Event) : Prop :=
  ∃ event, Relation.ReflTransGen (fun e e' => Step cfg adapter e e' ∧ ¬ Defines adapter index e) start event ∧
    Uses adapter index event

/-- The first event after the head of a block. -/
def head (block : Nat) : Event := .defs block 0

/-- The first event after the tail of a block, which lies after its last instruction. -/
def tail (block : Nat) : Event := .uses block (adapter.blockSize block)

/-- Live before the uses of a boundary, when the given list is live at the tail. -/
inductive LiveBefore (block : Nat) (liveAtTail : List Nat) (index : Nat) : Nat → Prop where
  | atTail (h : index ∈ liveAtTail) : LiveBefore block liveAtTail index (adapter.blockSize block)
  | use {i : Nat} (hi : i < adapter.blockSize block) (h : index ∈ adapter.uses block i) : LiveBefore block liveAtTail index i
  | keep {i : Nat} (hi : i < adapter.blockSize block) (hdef : index ∉ adapter.defs block (i+1))
      (h : LiveBefore block liveAtTail index (i+1)) : LiveBefore block liveAtTail index i

/-- Live at the head of the block, when the given list is live at the tail. -/
def LiveThrough (block : Nat) (liveAtTail : List Nat) (index : Nat) : Prop :=
  LiveBefore adapter block liveAtTail index 0 ∧ index ∉ adapter.defs block 0

end

variable {cfg : CFG} {adapter : Adapter} {block index i : Nat} {liveAtTail : List Nat}

theorem Live.of_use {event : Event} (h : Uses adapter index event) : Live cfg adapter index event := ⟨event,.refl,h⟩

theorem Live.of_step {event next : Event} (hs : Step cfg adapter event next) (hdf : ¬ Defines adapter index event)
    (h : Live cfg adapter index next) : Live cfg adapter index event := by
  obtain ⟨l,hp,hu⟩ := h
  exact ⟨l,.head ⟨hs,hdf⟩ hp,hu⟩

theorem liveBefore_size : LiveBefore adapter block liveAtTail index (adapter.blockSize block) ↔ index ∈ liveAtTail := by
  refine ⟨fun h => ?_,.atTail⟩
  cases h with
  | atTail h => exact h
  | use hi h => omega
  | keep hi hdf h => omega

theorem liveBefore_lt (hi : i < adapter.blockSize block) : LiveBefore adapter block liveAtTail index i ↔
    index ∈ adapter.uses block i ∨ index ∉ adapter.defs block (i+1) ∧ LiveBefore adapter block liveAtTail index (i+1) := by
  constructor
  · intro h
    cases h with
    | atTail h => omega
    | use hi h => exact .inl h
    | keep hi hdf h => exact .inr ⟨hdf,h⟩
  · rintro (h | ⟨hdf,h⟩)
    · exact .use hi h
    · exact .keep hi hdf h

variable {liveAtTail' : List Nat}

theorem LiveBefore.mono (hs : ∀ x ∈ liveAtTail, x ∈ liveAtTail')
    (h : LiveBefore adapter block liveAtTail index i) : LiveBefore adapter block liveAtTail' index i := by
  induction h with
  | atTail h => exact .atTail (hs index h)
  | use hi h => exact .use hi h
  | keep hi hdf h ih => exact .keep hi hdf ih

theorem LiveThrough.mono (hs : ∀ x ∈ liveAtTail, x ∈ liveAtTail')
    (h : LiveThrough adapter block liveAtTail index) : LiveThrough adapter block liveAtTail' index := ⟨h.1.mono hs,h.2⟩

theorem LiveBefore.lt (hb : ∀ x ∈ liveAtTail, x < adapter.numIndices) (h : LiveBefore adapter block liveAtTail index i) :
    index < adapter.numIndices := by
  induction h with
  | atTail h => exact hb index h
  | use hi h => exact adapter.uses_lt _ _ index h
  | keep hi hdf h ih => exact ih

section
variable (hl : ∀ x ∈ liveAtTail, Live cfg adapter x (tail adapter block))
include hl

theorem LiveBefore.live (h : LiveBefore adapter block liveAtTail index i) : Live cfg adapter index (.uses block i) := by
  induction h with
  | atTail h => exact hl index h
  | use hi h => exact .of_use h
  | keep hi hdf h ih => exact .of_step (.instruction hi) id (.of_step (.boundary block _) hdf ih)

theorem LiveThrough.live (h : LiveThrough adapter block liveAtTail index) : Live cfg adapter index (head block) :=
  .of_step (.boundary block 0) h.2 (h.1.live hl)

end

/-- Sets that contain what the equations of liveness put into them. -/
structure Closed (cfg : CFG) (adapter : Adapter) (liveAtHead liveAtTail : Nat → List Nat) : Prop where
  lateUses : ∀ block, cfg.node block = true → ∀ x ∈ adapter.uses block (adapter.blockSize block), x ∈ liveAtTail block
  through : ∀ block, cfg.node block = true → ∀ x, LiveThrough adapter block (liveAtTail block) x → x ∈ liveAtHead block
  edge : ∀ block, cfg.node block = true → ∀ successor ∈ cfg.successors block, ∀ x ∈ liveAtHead successor, x ∈ liveAtTail block

section
variable {atHead liveAtTail : Nat → List Nat}

/-- What the sets of a solution say about an event. -/
def Known (adapter : Adapter) (liveAtTail : Nat → List Nat) (index : Nat) : Event → Prop
  | .defs block i => LiveBefore adapter block (liveAtTail block) index i ∧ index ∉ adapter.defs block i
  | .uses block i => LiveBefore adapter block (liveAtTail block) index i

def Occurs (cfg : CFG) (adapter : Adapter) : Event → Prop
  | .defs block i => cfg.node block = true ∧ i ≤ adapter.blockSize block
  | .uses block i => cfg.node block = true ∧ i ≤ adapter.blockSize block

variable {event : Event}

theorem Occurs.step {next : Event} (h : Occurs cfg adapter event) (hst : Step cfg adapter event next) :
    Occurs cfg adapter next := by
  cases hst with
  | boundary block i => exact h
  | instruction hi => exact ⟨h.1,hi⟩
  | edge hs => exact ⟨cfg.successor_node _ _ h.1 hs,Nat.zero_le _⟩

section
variable (h : Closed cfg adapter atHead liveAtTail)
include h

section
variable (ho : Occurs cfg adapter event)
include ho

theorem Closed.known_of_uses (hu : Uses adapter index event) : Known adapter liveAtTail index event := by
  cases event with
  | defs block i => exact hu.elim
  | uses block i =>
    obtain hi | rfl := Nat.lt_or_eq_of_le ho.2
    · exact .use hi hu
    · exact .atTail (h.lateUses block ho.1 index hu)

theorem Closed.known_of_step {next : Event}
    (hst : Step cfg adapter event next) (hdf : ¬ Defines adapter index event)
    (hn : Known adapter liveAtTail index next) : Known adapter liveAtTail index event := by
  cases hst with
  | boundary block i => exact ⟨hn,hdf⟩
  | instruction hi => exact .keep hi hn.2 hn.1
  | edge hs =>
    exact .atTail (h.edge _ ho.1 _ hs _ (h.through _ (cfg.successor_node _ _ ho.1 hs) _ hn))

theorem Closed.known (hl : Live cfg adapter index event) : Known adapter liveAtTail index event := by
  obtain ⟨l,hp,hu⟩ := hl
  induction hp using Relation.ReflTransGen.head_induction_on with
  | refl => exact h.known_of_uses ho hu
  | head hs hp ih => exact h.known_of_step ho hs.1 hs.2 (ih (ho.step hs.1))

end

theorem Closed.mem_tail (hn : cfg.node block)
    (hl : Live cfg adapter index (tail adapter block)) : index ∈ liveAtTail block :=
  liveBefore_size.1 (h.known ⟨hn,le_rfl⟩ hl : Known adapter liveAtTail index (tail adapter block))

theorem Closed.mem_head (hn : cfg.node block)
    (hl : Live cfg adapter index (head block)) : index ∈ atHead block :=
  h.through block hn index (h.known ⟨hn,Nat.zero_le _⟩ hl : Known adapter liveAtTail index (head block))

end

end
end WebKit.WTF.Liveness
