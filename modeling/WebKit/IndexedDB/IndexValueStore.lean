import Mathlib.Data.Finset.Option

/-! The records of one index: primary keys under index keys, beside an ordered set of the index keys. Hash maps are functions,
ordered sets are finite sets. -/
namespace WebKit.IndexedDB
open Function Finset

inductive ExceptionCode where
  | constraintError | invalidStateError | unknownError
  deriving DecidableEq, Repr

/-- An error, or none for the null error. -/
abbrev IDBError : Type := Option ExceptionCode

/-- The primary keys under an index key: one in a unique index. -/
inductive IndexValueEntry (K : Type*) : Bool → Type _
  | unique (key : Option K) : IndexValueEntry K true
  | ordered (orderedKeys : Finset K) : IndexValueEntry K false

/-- The hash map and the ordered set share the equality of keys. -/
structure IndexValueStore (K : Type*) (unique : Bool) where
  records : K → Option (IndexValueEntry K unique)
  orderedKeys : Finset K

section
variable {K : Type*} [DecidableEq K] {unique : Bool}

namespace IndexValueEntry

def empty : (unique : Bool) → IndexValueEntry K unique
  | true => .unique none
  | false => .ordered ∅

def addKey (key : K) : IndexValueEntry K unique → IndexValueEntry K unique
  | .unique _ => .unique (some key)
  | .ordered orderedKeys => .ordered (insert key orderedKeys)

/-- Remove a key and say whether it was there. -/
def removeKey (key : K) : IndexValueEntry K unique → IndexValueEntry K unique × Bool
  | .unique stored => if stored = some key then (.unique none, true) else (.unique stored, false)
  | .ordered orderedKeys => (.ordered (orderedKeys.erase key), decide (key ∈ orderedKeys))

def getCount : IndexValueEntry K unique → Nat
  | .unique stored => if stored.isSome then 1 else 0
  | .ordered orderedKeys => orderedKeys.card

def keys : IndexValueEntry K unique → Finset K
  | .unique stored => stored.toFinset
  | .ordered orderedKeys => orderedKeys

end IndexValueEntry

namespace IndexValueStore

def new (unique : Bool) : IndexValueStore K unique := ⟨fun _ => none,∅⟩

def contains (store : IndexValueStore K unique) (key : K) : Bool := (store.records key).isSome

def addRecord (store : IndexValueStore K unique) (indexKey valueKey : K) : IndexValueStore K unique × IDBError :=
  if (store.records indexKey).isSome && unique then (store, some .constraintError)
  else
    let entry := (store.records indexKey).getD (.empty unique)
    ({ records := update store.records indexKey (some (entry.addKey valueKey))
       orderedKeys := insert indexKey store.orderedKeys }, none)

/-- Remove the whole entry when the primary key was there. The index key is present. -/
def removeRecord (store : IndexValueStore K unique) (indexKey valueKey : K) : IndexValueStore K unique :=
  match store.records indexKey with
  | none => store
  | some entry =>
    if (entry.removeKey valueKey).2 then { store with records := update store.records indexKey none }
    else { store with records := update store.records indexKey (some (entry.removeKey valueKey).1) }

def addRecords (store : IndexValueStore K unique) (keys : List K) (valueKey : K) : IndexValueStore K unique :=
  keys.foldl (fun store key => (store.addRecord key valueKey).1) store

def removeRecords (store : IndexValueStore K unique) (keys : List K) (valueKey : K) : IndexValueStore K unique :=
  keys.foldl (fun store key => store.removeRecord key valueKey) store

/-- None when nothing is left. -/
def entryWithout (valueKey : K) (entry : IndexValueEntry K unique) : Option (IndexValueEntry K unique) :=
  if (entry.removeKey valueKey).1.getCount = 0 then none else some (entry.removeKey valueKey).1

def removeEntriesWithValueKey (store : IndexValueStore K unique) (valueKey : K) : IndexValueStore K unique where
  records indexKey := (store.records indexKey).bind (entryWithout valueKey)
  orderedKeys := store.orderedKeys.filter fun indexKey =>
    ¬ (store.records indexKey).any fun entry => (entryWithout valueKey entry).isNone

end IndexValueStore
end

section
variable {K : Type*} {unique : Bool}

namespace IndexValueEntry

@[simp] theorem keys_empty : (empty unique : IndexValueEntry K unique).keys = ∅ := by cases unique <;> rfl

private theorem getCount_eq_zero_iff (e : IndexValueEntry K unique) : e.getCount = 0 ↔ e.keys = ∅ := by
  cases e with
  | unique s => cases s <;> simp [getCount,keys]
  | ordered os => simp [getCount,keys]

private theorem eq_of_keys_eq {e e' : IndexValueEntry K unique} (h : e.keys = e'.keys) : e = e' := by
  cases e with
  | unique s =>
    cases e' with
    | unique s' =>
      congr 1
      ext key
      have := congrArg (key ∈ ·) h
      simpa [keys] using this
  | ordered keys =>
    cases e' with
    | ordered keys' => exact congrArg _ h

end IndexValueEntry

namespace IndexValueStore

def keysAt (store : IndexValueStore K unique) (indexKey : K) : Finset K :=
  (store.records indexKey).elim ∅ IndexValueEntry.keys

/-- The store holds just the given pairs of index key and primary key. -/
structure Holds (store : IndexValueStore K unique) (pairs : K → K → Prop) : Prop where
  mem_keysAt : ∀ indexKey valueKey, valueKey ∈ store.keysAt indexKey ↔ pairs indexKey valueKey
  nonempty : ∀ indexKey, ∀ entry ∈ store.records indexKey, entry.keys.Nonempty
  mem_orderedKeys : ∀ indexKey, indexKey ∈ store.orderedKeys ↔ (store.records indexKey).isSome

variable {store : IndexValueStore K unique} {pairs : K → K → Prop}

theorem Holds.isSome_iff (h : store.Holds pairs) (i : K) : (store.records i).isSome ↔ ∃ vkey, pairs i vkey := by
  simp only [← h.mem_keysAt,keysAt]
  cases he : store.records i with
  | none => simp
  | some e =>
    obtain ⟨key,hk⟩ := h.nonempty i e he
    simpa using ⟨key,hk⟩

variable {pairs' : K → K → Prop}

theorem Holds.congr (h : store.Holds pairs) (hp : ∀ j p, pairs j p ↔ pairs' j p) : store.Holds pairs' :=
  ⟨fun j p => (h.mem_keysAt j p).trans (hp j p),h.nonempty,h.mem_orderedKeys⟩

variable {store' : IndexValueStore K unique}

theorem Holds.records_eq (h : store.Holds pairs)
    (h' : store'.Holds pairs') {ikey : K} (hp : ∀ p, pairs ikey p ↔ pairs' ikey p) :
    store.records ikey = store'.records ikey := by
  have hs : (store.records ikey).isSome ↔ (store'.records ikey).isSome := by
    rw [h.isSome_iff,h'.isSome_iff]
    exact exists_congr hp
  have hk : store.keysAt ikey = store'.keysAt ikey := by
    ext vkey
    rw [h.mem_keysAt,h'.mem_keysAt,hp]
  unfold keysAt at hk
  cases he : store.records ikey <;> cases he' : store'.records ikey <;> rw [he,he'] at hs hk
  · simp at hs
  · simp at hs
  · exact congrArg some (IndexValueEntry.eq_of_keys_eq hk)

theorem Holds.eq (h : store.Holds pairs) (h' : store'.Holds pairs) : store = store' := by
  have hr : store.records = store'.records := funext fun _ => h.records_eq h' fun _ => Iff.rfl
  have ho : store.orderedKeys = store'.orderedKeys := by
    ext ikey
    rw [h.mem_orderedKeys,h'.mem_orderedKeys,hr]
  cases store
  cases store'
  simp_all

theorem new_holds : (new unique : IndexValueStore K unique).Holds fun _ _ => False :=
  ⟨fun _ _ => by simp [new,keysAt],fun _ _ h => by simp [new] at h,fun _ => by simp [new]⟩

end IndexValueStore

variable [DecidableEq K]

namespace IndexValueEntry

private theorem keys_addKey {e : IndexValueEntry K unique} (h : unique → e.keys = ∅) (key : K) :
    (e.addKey key).keys = insert key e.keys := by
  cases e with
  | unique s =>
    rw [h rfl]
    rfl
  | ordered os => rfl

private theorem keys_removeKey (e : IndexValueEntry K unique) (key : K) :
    (e.removeKey key).1.keys = e.keys.erase key := by
  cases e with
  | unique s =>
    rw [removeKey]
    split_ifs with h
    · simp [keys,h]
    · simp only [keys]
      rw [erase_eq_of_notMem]
      simpa [eq_comm] using h
  | ordered os => rfl

theorem removeKey_removed (e : IndexValueEntry K unique) (key : K) :
    (e.removeKey key).2 = decide (key ∈ e.keys) := by
  cases e with
  | unique s =>
    rw [removeKey]
    split_ifs with h
    · simp [keys,h]
    · simpa [keys,eq_comm] using h
  | ordered os => rfl

end IndexValueEntry

namespace IndexValueStore
variable {store : IndexValueStore K unique} {pairs : K → K → Prop}

theorem addRecord_holds (h : store.Holds pairs) {ikey : K} (vkey : K) (hf : unique → ∀ key, ¬ pairs ikey key) :
    ∃ store', store.addRecord ikey vkey = (store', none) ∧ store'.Holds fun j p => pairs j p ∨ j = ikey ∧ p = vkey := by
  have hg : ((store.records ikey).isSome && unique) = false := by
    rw [Bool.eq_false_iff,Ne,Bool.and_eq_true,h.isSome_iff]
    rintro ⟨⟨key,hky⟩,hu⟩
    exact hf hu key hky
  have hk : ((store.records ikey).getD (.empty unique)).keys = store.keysAt ikey := by
    rw [keysAt]
    cases store.records ikey <;> simp
  have hem (hu : unique) : ((store.records ikey).getD (.empty unique)).keys = ∅ := by
    rw [hk,eq_empty_iff_forall_notMem]
    intro key hky
    exact hf hu key ((h.mem_keysAt _ _).1 hky)
  have ha := IndexValueEntry.keys_addKey hem vkey
  rw [hk] at ha
  rw [addRecord,hg]
  refine ⟨_,rfl,⟨fun j p => ?_,fun j entry he => ?_,fun j => ?_⟩⟩
  · by_cases hj : j = ikey
    · subst hj
      simp only [keysAt,update_self,Option.elim_some,ha,mem_insert]
      rw [← keysAt,h.mem_keysAt,or_comm]
      simp
    · simp only [keysAt,update_of_ne hj,hj,false_and,or_false]
      exact h.mem_keysAt j p
  · by_cases hj : j = ikey
    · subst hj
      obtain rfl : _ = entry := by simpa using he
      rw [ha]
      exact insert_nonempty _ _
    · exact h.nonempty j entry (by simpa [update_of_ne hj] using he)
  · rw [mem_insert,h.mem_orderedKeys]
    by_cases hj : j = ikey
    · simp [hj]
    · simp [hj]

theorem removeEntriesWithValueKey_holds (h : store.Holds pairs) (vkey : K) :
    (store.removeEntriesWithValueKey vkey).Holds fun j p => pairs j p ∧ p ≠ vkey := by
  have hwt (e : IndexValueEntry K unique) :
      ((entryWithout vkey e).elim ∅ IndexValueEntry.keys) = e.keys.erase vkey := by
    rw [entryWithout]
    split_ifs with hz
    · rw [IndexValueEntry.getCount_eq_zero_iff,IndexValueEntry.keys_removeKey] at hz
      exact hz.symm
    · exact e.keys_removeKey vkey
  refine ⟨fun j p => ?_,fun j e hen => ?_,fun j => ?_⟩
  · have hk : (store.removeEntriesWithValueKey vkey).keysAt j = (store.keysAt j).erase vkey := by
      simp only [keysAt,removeEntriesWithValueKey]
      cases store.records j with
      | none => rfl
      | some e => exact hwt e
    rw [hk,mem_erase,h.mem_keysAt,and_comm]
  · obtain ⟨o,ho,he⟩ := Option.bind_eq_some_iff.1 hen
    rw [entryWithout] at he
    split_ifs at he with hz
    cases he
    rw [IndexValueEntry.getCount_eq_zero_iff] at hz
    exact nonempty_iff_ne_empty.2 hz
  · simp only [removeEntriesWithValueKey,mem_filter,h.mem_orderedKeys]
    cases store.records j with
    | none => simp
    | some e => cases hw : entryWithout vkey e <;> simp [hw]

end IndexValueStore
end
end WebKit.IndexedDB
