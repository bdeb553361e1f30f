import WebKit.Base.HashSet
import WebKit.IndexedDB.IndexValueStore

/-! Indexes of an object store: index keys of a value, adding them with a check of uniqueness, and taking them back. -/
namespace WebKit.IndexedDB
open IndexValueStore List

/-- What index keys need of key data: validity, and the key of an array. -/
structure KeyRules (K : Type*) where
  isValid : K → Bool
  arrayKey : List K → K

/-- The key path is what it selects in a value. -/
structure IDBIndexInfo (K J : Type*) where
  unique : Bool
  multiEntry : Bool
  keyPath : J → List K

structure MemoryIndex (K J : Type*) where
  info : IDBIndexInfo K J
  records : Option (IndexValueStore K info.unique)

variable {K J : Type*} [DecidableEq K]

namespace IndexKey

/-- The keys as one key; they are not empty. -/
def asOneKey (rules : KeyRules K) : List K → K
  | [key] => key
  | keys => rules.arrayKey keys

/-- The valid keys, each once. -/
def multiEntry (rules : KeyRules K) (keys : List K) : List K :=
  Base.HashSet.addAll [] (keys.filter rules.isValid)

end IndexKey

namespace MemoryIndex

/-- The record store, a new one when there is none. -/
def store (index : MemoryIndex K J) : IndexValueStore K index.info.unique := index.records.getD (.new _)

def setStore (index : MemoryIndex K J) (store : IndexValueStore K index.info.unique) : MemoryIndex K J :=
  { index with records := some store }

/-- The index with a record store, a new one when there was none. -/
def withStore (index : MemoryIndex K J) : MemoryIndex K J := index.setStore index.store

variable (rules : KeyRules K)

def putIndexKey (index : MemoryIndex K J) (valueKey : K) (indexKey : List K) : MemoryIndex K J × IDBError :=
  if !index.info.multiEntry then
    let result := index.store.addRecord (IndexKey.asOneKey rules indexKey) valueKey
    (index.setStore result.1, result.2)
  else
    let keys := IndexKey.multiEntry rules indexKey
    if index.info.unique && keys.any index.store.contains then (index.setStore index.store, some .constraintError)
    else (index.setStore (index.store.addRecords keys valueKey), none)

def removeRecord (index : MemoryIndex K J) (valueKey : K) (indexKey : List K) : MemoryIndex K J :=
  if !index.info.multiEntry then index.setStore (index.store.removeRecord (IndexKey.asOneKey rules indexKey) valueKey)
  else
    let keys := IndexKey.multiEntry rules indexKey
    index.setStore (index.store.removeRecords keys valueKey)

def removeEntriesWithValueKey (index : MemoryIndex K J) (valueKey : K) : MemoryIndex K J :=
  { index with records := index.records.map (·.removeEntriesWithValueKey valueKey) }

/-- The keys under which a value with the given index key is filed. -/
def filedKeys (info : IDBIndexInfo K J) (indexKey : List K) : List K :=
  if info.multiEntry then IndexKey.multiEntry rules indexKey else [IndexKey.asOneKey rules indexKey]

end MemoryIndex

section
variable {rules : KeyRules K}

namespace IndexValueStore
variable {unique : Bool} {store : IndexValueStore K unique} {pairs : K → K → Prop} {keys : List K}

theorem addRecords_holds (h : store.Holds pairs) (hn : keys.Nodup) (vkey : K)
    (hf : unique → ∀ key ∈ keys, ∀ p, ¬ pairs key p) :
    (store.addRecords keys vkey).Holds fun j p => pairs j p ∨ j ∈ keys ∧ p = vkey := by
  induction keys generalizing store pairs with
  | nil => simpa [addRecords] using h
  | cons key keys ih =>
    obtain ⟨hky,hn⟩ := nodup_cons.1 hn
    obtain ⟨store',ha,hs'⟩ := addRecord_holds h vkey fun hu => hf hu key mem_cons_self
    have hr := ih hs' hn fun hu k hk p => by
      rintro (hp | ⟨rfl,-⟩)
      · exact hf hu k (mem_cons_of_mem _ hk) p hp
      · exact hky hk
    rw [addRecords,foldl_cons,ha]
    refine hr.congr fun j p => ?_
    rw [mem_cons,or_and_right,or_assoc]

/-- Taking a primary key back removes its whole entries, but no ordered key. -/
theorem removeRecords_eq (hn : keys.Nodup) {v : K} (hm : ∀ key ∈ keys, v ∈ store.keysAt key) :
    store.removeRecords keys v =
      { records := fun j => if j ∈ keys then none else store.records j, orderedKeys := store.orderedKeys } := by
  induction keys generalizing store with
  | nil => simp [removeRecords]
  | cons key keys ih =>
    obtain ⟨hky,hn⟩ := nodup_cons.1 hn
    have hr : store.removeRecord key v = { store with records := Function.update store.records key none } := by
      have hv := hm key mem_cons_self
      rw [keysAt] at hv
      rw [removeRecord]
      cases he : store.records key with
      | none => simp [he] at hv
      | some e =>
        rw [he,Option.elim_some] at hv
        simp [IndexValueEntry.removeKey_removed,hv]
    rw [removeRecords,foldl_cons,hr]
    refine (ih hn fun k hk => ?_).trans ?_
    · have hne : k ≠ key := fun he => hky (he ▸ hk)
      simpa [keysAt,Function.update_of_ne hne] using hm k (mem_cons_of_mem _ hk)
    · congr 1
      funext j
      by_cases hj : j = key
      · simp [hj]
      · simp [hj]

/-- Adding a primary key and taking it back restores the store only if nothing was added. -/
theorem removeRecords_addRecords_eq_iff (h : store.Holds pairs) (hn : keys.Nodup) {v : K}
    (hf : unique → ∀ key ∈ keys, ∀ p, ¬ pairs key p) :
    (store.addRecords keys v).removeRecords keys v = store ↔ keys = [] := by
  have ha := addRecords_holds h hn v hf
  rw [removeRecords_eq hn fun key hk => (ha.mem_keysAt _ _).2 (.inr ⟨hk,rfl⟩)]
  constructor
  · intro he
    by_contra hne
    obtain ⟨key,hk⟩ := exists_mem_of_ne_nil _ hne
    have hr : store.records key = none := by rw [← he]; exact if_pos hk
    have ho : key ∈ store.orderedKeys := by
      rw [← he,ha.mem_orderedKeys,ha.isSome_iff]
      exact ⟨v,.inr ⟨hk,rfl⟩⟩
    rw [h.mem_orderedKeys,hr] at ho
    cases ho
  · rintro rfl
    simp [addRecords]

end IndexValueStore

namespace MemoryIndex
variable {index : MemoryIndex K J} {pairs : K → K → Prop}

theorem filedKeys_nodup (inf : IDBIndexInfo K J) (i : List K) : (filedKeys rules inf i).Nodup := by
  rw [filedKeys]
  split_ifs
  · exact Base.HashSet.nodup_addAll nodup_nil
  · exact nodup_singleton _

/-- An index key that some other record holds in a unique index. -/
def Conflicts (rules : KeyRules K) (info : IDBIndexInfo K J) (pairs : K → K → Prop) (indexKey : List K) : Prop :=
  info.unique = true ∧ ∃ key ∈ filedKeys rules info indexKey, ∃ p, pairs key p

theorem putIndexKey_of_not_conflicts (h : index.store.Holds pairs) (v : K) {i : List K}
    (hf : ¬ Conflicts rules index.info pairs i) :
    index.putIndexKey rules v i =
      (index.setStore (index.store.addRecords (filedKeys rules index.info i) v), none) := by
  rw [Conflicts,filedKeys] at hf
  rw [putIndexKey,filedKeys]
  cases hm : index.info.multiEntry with
  | false =>
    rw [hm] at hf
    obtain ⟨store',had,-⟩ := addRecord_holds h v
      (fun hu p hp => hf ⟨hu,_,mem_singleton_self _,p,hp⟩)
    simp [addRecords,had]
  | true =>
    rw [hm] at hf
    have ha : (index.info.unique && (IndexKey.multiEntry rules i).any index.store.contains) = false := by
      rw [Bool.eq_false_iff]
      intro ha
      rw [Bool.and_eq_true,any_eq_true] at ha
      obtain ⟨hu,key,hk,hc⟩ := ha
      obtain ⟨p,hp⟩ := (h.isSome_iff key).1 hc
      exact hf ⟨hu,key,hk,p,hp⟩
    simp [ha]

theorem putIndexKey_of_conflicts (h : index.store.Holds pairs) (v : K) {i : List K}
    (hc : Conflicts rules index.info pairs i) :
    index.putIndexKey rules v i = (index.setStore index.store, some .constraintError) := by
  obtain ⟨hu,key,hk,p,hp⟩ := hc
  have hs := (h.isSome_iff key).2 ⟨p,hp⟩
  rw [filedKeys] at hk
  rw [putIndexKey]
  cases hm : index.info.multiEntry with
  | false =>
    rw [hm] at hk
    obtain rfl := mem_singleton.1 hk
    simp [addRecord,hs,hu]
  | true =>
    rw [hm] at hk
    have ha : (IndexKey.multiEntry rules i).any index.store.contains :=
      any_eq_true.2 ⟨key,hk,hs⟩
    simp [ha,hu]

omit [DecidableEq K] in
theorem setStore_eq_withStore_iff (store : IndexValueStore K index.info.unique) :
    (index.setStore store).withStore = index.withStore ↔ store = index.store := by
  simp [withStore,setStore,MemoryIndex.store]

theorem removeRecord_eq (v : K) (i : List K) : index.removeRecord rules v i =
      index.setStore (index.store.removeRecords (filedKeys rules index.info i) v) := by
  rw [removeRecord,filedKeys]
  cases index.info.multiEntry <;> rfl

end MemoryIndex
end
end WebKit.IndexedDB
