import WebKit.Base.Runs
import WebKit.IndexedDB.Schema

/-! What a version-change transaction has to have logged for an abort to find the old schema, and
the condition on requests under which it has. -/
namespace WebKit.IndexedDB

open Base Function Option Finset HashSet StoreSchema Table List

variable {Name : Type*} [DecidableEq Name]

/-- The two maps of the indexes and their infos agree. -/
structure StoreSchema.Agrees (store : StoreSchema Name) : Prop where
  byName : ∀ name index, store.indexesByName.get name = some index ↔
    index ∈ store.indexesByIdentifier ∧ store.indexNames index = name
  info : ∀ index name, store.indexMap.get index = some name ↔
    index ∈ store.indexesByIdentifier ∧ store.indexNames index = name

theorem StoreSchema.Agrees.eq_of_name {store : StoreSchema Name} (h : store.Agrees) {i j : Nat}
    (hi : i ∈ store.indexesByIdentifier) (hj : j ∈ store.indexesByIdentifier)
    (hn : store.indexNames i = store.indexNames j) : i = j := by
  have hl := (h.byName _ i).2 ⟨hi,hn⟩
  rw [(h.byName _ j).2 ⟨hj,rfl⟩] at hl
  exact (some_inj.1 hl).symm

def StoreSchema.eraseIndex (store : StoreSchema Name) (index : Nat) : StoreSchema Name :=
  { store with
    indexMap := store.indexMap.remove index
    indexesByIdentifier := store.indexesByIdentifier.erase index
    indexesByName := store.indexesByName.remove (store.indexNames index) }

/-- The maps of the object stores and those of their indexes agree. -/
structure MemoryIDBBackingStore.WellFormed (backing : MemoryIDBBackingStore Name) : Prop where
  byName : ∀ name objectStore, backing.objectStoresByName name = some objectStore ↔
    objectStore ∈ backing.objectStoresByIdentifier ∧ (backing.objectStores objectStore).name = name
  agrees : ∀ objectStore ∈ backing.objectStoresByIdentifier, (backing.objectStores objectStore).Agrees
  bounded : ∀ objectStore ∈ backing.objectStoresByIdentifier, objectStore ≤ backing.databaseInfo.maxObjectStoreID

namespace VersionChange

/-- The name that an abort gives an object store. -/
def firstStoreName (transaction : VersionChange Name) (objectStore : Nat) : Name :=
  (transaction.originalObjectStoreNames.get objectStore).getD (transaction.objectStores objectStore).name

/-- The name that an abort gives an index. -/
def firstIndexName (transaction : VersionChange Name) (objectStore index : Nat) : Name :=
  (transaction.originalIndexNames.get (objectStore, index)).getD ((transaction.objectStores objectStore).indexNames index)

/-- The indexes of an object store are registered or logged. -/
structure IndexesLogged (old : StoreSchema Name) (objectStore : Nat) (transaction : VersionChange Name) : Prop where
  agrees : (transaction.objectStores objectStore).Agrees
  subset : (transaction.objectStores objectStore).indexesByIdentifier ⊆ old.indexesByIdentifier
  names : ∀ index ∈ old.indexesByIdentifier, transaction.firstIndexName objectStore index = old.indexNames index
  kept : ∀ index ∈ old.indexesByIdentifier, index ∈ (transaction.objectStores objectStore).indexesByIdentifier ∨
    ∃ name, transaction.deletedIndexes.get name = some (objectStore, index)
  deleted : ∀ name index, transaction.deletedIndexes.get name = some (objectStore, index) →
    index ∈ old.indexesByIdentifier

/-- The old schema's object stores are registered or logged, and so are their indexes. -/
structure Undoable (old : MemoryIDBBackingStore Name) (transaction : VersionChange Name) : Prop where
  bounded : ∀ s, s ∈ old.objectStoresByIdentifier ∨ s ∈ transaction.versionChangeAddedObjectStores ∨
    (transaction.originalObjectStoreNames.get s).isSome → s ≤ transaction.databaseInfo.maxObjectStoreID
  added : ∀ s ∈ transaction.versionChangeAddedObjectStores, s ∉ old.objectStoresByIdentifier
  registered : ∀ s ∈ transaction.objectStoresByIdentifier,
    s ∈ old.objectStoresByIdentifier ∨ s ∈ transaction.versionChangeAddedObjectStores
  kept : ∀ s ∈ old.objectStoresByIdentifier,
    s ∈ transaction.objectStoresByIdentifier ∨ ∃ name, transaction.deletedObjectStores.get name = some s
  deleted : ∀ name s, transaction.deletedObjectStores.get name = some s → s ∈ old.objectStoresByIdentifier
  names : ∀ s ∈ old.objectStoresByIdentifier, transaction.firstStoreName s = (old.objectStores s).name
  byName : ∀ name s, transaction.objectStoresByName name = some s → transaction.firstStoreName s = name ∧
    (s ∈ old.objectStoresByIdentifier ∨ s ∈ transaction.objectStoresByIdentifier)
  byName_firstStoreName : ∀ s ∈ transaction.objectStoresByIdentifier,
    transaction.objectStoresByName (transaction.firstStoreName s) = some s
  indexes : ∀ s ∈ old.objectStoresByIdentifier, transaction.IndexesLogged (old.objectStores s) s

/-- A change to one object store's indexes and what is logged of them. -/
structure IndexChange (objectStore : Nat) (transaction transaction' : VersionChange Name) : Prop where
  objectStoresByIdentifier : transaction'.objectStoresByIdentifier = transaction.objectStoresByIdentifier
  objectStoresByName : transaction'.objectStoresByName = transaction.objectStoresByName
  added : transaction'.versionChangeAddedObjectStores = transaction.versionChangeAddedObjectStores
  deletedObjectStores : transaction'.deletedObjectStores = transaction.deletedObjectStores
  originalObjectStoreNames : transaction'.originalObjectStoreNames = transaction.originalObjectStoreNames
  maxObjectStoreID : transaction'.databaseInfo.maxObjectStoreID = transaction.databaseInfo.maxObjectStoreID
  name : ∀ s, (transaction'.objectStores s).name = (transaction.objectStores s).name
  objectStores : ∀ s ≠ objectStore, transaction'.objectStores s = transaction.objectStores s
  originalIndexNames : ∀ s ≠ objectStore, ∀ index,
    transaction'.originalIndexNames.get (s, index) = transaction.originalIndexNames.get (s, index)
  deletedIndexes : ∀ s ≠ objectStore, ∀ index name,
    transaction'.deletedIndexes.get name = some (s, index) ↔ transaction.deletedIndexes.get name = some (s, index)

variable {old : MemoryIDBBackingStore Name} {tx tx' tx'' : VersionChange Name}
  {os index : Nat}

private theorem undoable_start (h : old.WellFormed) : Undoable old (start old) where
  bounded s hs := h.bounded s (by simpa [start] using hs)
  added s hs := by simp [start] at hs
  registered s hs := .inl hs
  kept s hs := .inl hs
  deleted name s hs := by simp [start] at hs
  names s _ := rfl
  byName name s hs := ⟨((h.byName name s).1 hs).2,.inl ((h.byName name s).1 hs).1⟩
  byName_firstStoreName s hs := (h.byName _ s).2 ⟨hs,rfl⟩
  indexes s hs := ⟨h.agrees s hs,Finset.Subset.refl _,fun _ _ => rfl,fun _ hi => .inl hi,
    fun name index hi => by simp [start] at hi⟩

theorem IndexChange.refl : IndexChange os tx tx :=
  ⟨rfl,rfl,rfl,rfl,rfl,rfl,fun _ => rfl,fun _ _ => rfl,fun _ _ _ => rfl,fun _ _ _ _ => Iff.rfl⟩

theorem IndexChange.trans (h : IndexChange os tx tx') (h' : IndexChange os tx' tx'') : IndexChange os tx tx'' where
  objectStoresByIdentifier := h'.objectStoresByIdentifier.trans h.objectStoresByIdentifier
  objectStoresByName := h'.objectStoresByName.trans h.objectStoresByName
  added := h'.added.trans h.added
  deletedObjectStores := h'.deletedObjectStores.trans h.deletedObjectStores
  originalObjectStoreNames := h'.originalObjectStoreNames.trans h.originalObjectStoreNames
  maxObjectStoreID := h'.maxObjectStoreID.trans h.maxObjectStoreID
  name s := (h'.name s).trans (h.name s)
  objectStores s hs := (h'.objectStores s hs).trans (h.objectStores s hs)
  originalIndexNames s hs i := (h'.originalIndexNames s hs i).trans (h.originalIndexNames s hs i)
  deletedIndexes s hs i name := (h'.deletedIndexes s hs i name).trans (h.deletedIndexes s hs i name)

theorem IndexChange.firstStoreName (h : IndexChange os tx tx') (s : Nat) :
    tx'.firstStoreName s = tx.firstStoreName s := by
  rw [VersionChange.firstStoreName,VersionChange.firstStoreName,h.originalObjectStoreNames,h.name]

variable {schema store : StoreSchema Name} {name : Name}

theorem IndexesLogged.congr (h : tx.IndexesLogged schema os)
    (hs : tx'.objectStores os = { tx.objectStores os with name := name })
    (hn : ∀ i, tx'.originalIndexNames.get (os, i) = tx.originalIndexNames.get (os, i))
    (hdl : ∀ i n, tx'.deletedIndexes.get n = some (os, i) ↔ tx.deletedIndexes.get n = some (os, i)) :
    tx'.IndexesLogged schema os := by
  refine ⟨?_,?_,fun i hi => ?_,fun i hi => ?_,fun n i hi => h.deleted n i ((hdl i n).1 hi)⟩
  · rw [hs]
    exact ⟨h.agrees.byName,h.agrees.info⟩
  · rw [hs]
    exact h.subset
  · rw [← h.names i hi,firstIndexName,firstIndexName,hs,hn]
  · rw [hs]
    simp only [hdl]
    exact h.kept i hi

theorem Undoable.of_indexChange (h : Undoable old tx) (hc : IndexChange os tx tx')
    (hl : os ∈ old.objectStoresByIdentifier → tx'.IndexesLogged (old.objectStores os) os) : Undoable old tx' where
  bounded := by
    rw [hc.added,hc.originalObjectStoreNames,hc.maxObjectStoreID]
    exact h.bounded
  added := hc.added ▸ h.added
  registered := by
    rw [hc.objectStoresByIdentifier,hc.added]
    exact h.registered
  kept := by
    rw [hc.objectStoresByIdentifier,hc.deletedObjectStores]
    exact h.kept
  deleted := hc.deletedObjectStores ▸ h.deleted
  names s hs := (hc.firstStoreName s).trans (h.names s hs)
  byName := by
    simp only [hc.objectStoresByName,hc.objectStoresByIdentifier,hc.firstStoreName]
    exact h.byName
  byName_firstStoreName := by
    simp only [hc.objectStoresByName,hc.objectStoresByIdentifier,hc.firstStoreName]
    exact h.byName_firstStoreName
  indexes s hs := by
    by_cases he : s = os
    · subst he
      exact hl hs
    · exact (h.indexes s hs).congr (hc.objectStores s he) (hc.originalIndexNames s he) (hc.deletedIndexes s he)

theorem indexChange_setObjectStore
    (hn : store.name = (tx.objectStores os).name) :
    IndexChange os tx (tx.setObjectStore os store) := by
  refine ⟨rfl,rfl,rfl,rfl,rfl,rfl,fun s => ?_,fun s hs => update_of_ne hs _ _,fun _ _ _ => rfl,
    fun _ _ _ _ => Iff.rfl⟩
  simp only [setObjectStore,MemoryIDBBackingStore.setObjectStore]
  by_cases hs : s = os
  · rw [hs,update_self,hn]
  · rw [update_of_ne hs]

private theorem indexChange_indexDeleted : IndexChange os tx (tx.indexDeleted os index) := by
  rw [indexDeleted]
  split_ifs
  · exact IndexChange.refl
  · refine ⟨rfl,rfl,rfl,rfl,rfl,rfl,fun _ => rfl,fun _ _ => rfl,fun _ _ _ => rfl,fun s hs i name => ?_⟩
    rw [get_add]
    split_ifs with hn
    · subst hn
      cases tx.deletedIndexes.get _ with
      | none => simp [hs.symm]
      | some e => rfl
    · rfl

theorem indexChange_deleteIndexOf : IndexChange os tx (tx.deleteIndexOf os index).1 := by
  have hn : ((tx.objectStores os).takeIndexByIdentifier index).1.name = (tx.objectStores os).name := by
    rw [takeIndexByIdentifier]
    split_ifs <;> rfl
  rw [deleteIndexOf]
  split
  next store ht =>
    rw [ht] at hn
    exact indexChange_setObjectStore hn
  next store t ht =>
    rw [ht] at hn
    refine IndexChange.trans (indexChange_setObjectStore ?_) indexChange_indexDeleted
    exact hn

variable {skipped : Nat}

private theorem indexChange_createIndex {ps : Bool} : IndexChange os tx (tx.createIndex os skipped name ps).1 := by
  rw [createIndex]
  split
  · exact IndexChange.refl
  · split
    · exact IndexChange.refl
    · exact indexChange_setObjectStore rfl

private theorem agrees_eraseIndex (h : store.Agrees) (hin : index ∈ store.indexesByIdentifier) :
    (store.eraseIndex index).Agrees := by
  constructor
  · intro name i
    rw [eraseIndex,get_remove,mem_erase]
    by_cases hn : name = store.indexNames index
    · rw [if_pos hn]
      exact iff_of_false (fun he => nomatch he) fun ⟨⟨hne,hm⟩,he⟩ => hne (h.eq_of_name hm hin (he.trans hn))
    · rw [if_neg hn,h.byName,and_assoc]
      refine (and_iff_right_of_imp ?_).symm
      rintro ⟨-,rfl⟩ rfl
      exact hn rfl
  · intro i name
    rw [eraseIndex,get_remove,mem_erase]
    by_cases hi : i = index
    · simp [hi]
    · simp [hi,h.info]

theorem deleteIndexOf_of_mem (h : (tx.objectStores os).Agrees) (hi : index ∈ (tx.objectStores os).indexesByIdentifier)
    (hs : tx.deletedObjectStores.get (tx.objectStores os).name = none) :
    let tx' := (tx.deleteIndexOf os index).1
    tx'.objectStores os = (tx.objectStores os).eraseIndex index ∧ tx'.originalIndexNames = tx.originalIndexNames ∧
      tx'.deletedIndexes = tx.deletedIndexes.add ((tx.objectStores os).indexNames index) (os, index) := by
  have ht := (h.byName _ _).2 ⟨hi,rfl⟩
  rw [deleteIndexOf,takeIndexByIdentifier]
  simp only [hi,not_true_eq_false,if_false,ht,indexDeleted,setObjectStore,
    MemoryIDBBackingStore.setObjectStore,update_self,hs,any_none,Bool.false_eq_true,eraseIndex,and_self]

theorem deleteIndexOf_of_notMem (hi : index ∉ (tx.objectStores os).indexesByIdentifier) :
    (tx.deleteIndexOf os index).1 = tx := by
  rw [deleteIndexOf,takeIndexByIdentifier,if_pos hi]
  simp only [setObjectStore,MemoryIDBBackingStore.setObjectStore,update_eq_self]

theorem IndexesLogged.deleteIndexOf (h : tx.IndexesLogged schema os)
    (hs : tx.deletedObjectStores.get (tx.objectStores os).name = none)
    (hf : index ∈ (tx.objectStores os).indexesByIdentifier →
      tx.deletedIndexes.get ((tx.objectStores os).indexNames index) = none) :
    (tx.deleteIndexOf os index).1.IndexesLogged schema os := by
  by_cases hin : index ∈ (tx.objectStores os).indexesByIdentifier
  · have hnm := hf hin
    obtain ⟨hs,hn,hdl⟩ := deleteIndexOf_of_mem h.agrees hin hs
    refine ⟨hs ▸ agrees_eraseIndex h.agrees hin,?_,fun i hi => ?_,fun i hi => ?_,fun name i hi => ?_⟩
    · rw [hs]
      exact (erase_subset _ _).trans h.subset
    · rw [← h.names i hi,firstIndexName,firstIndexName,hs,hn]
      rfl
    · simp only [hs,hdl,eraseIndex,mem_erase,get_add,hnm,getD_none]
      by_cases he : i = index
      · exact .inr ⟨_,by rw [if_pos rfl,he]⟩
      · refine (h.kept i hi).imp (fun hm => ⟨he,hm⟩) (Exists.imp fun name hl => ?_)
        rw [if_neg]
        · exact hl
        · rintro rfl
          cases hnm.symm.trans hl
    · rw [hdl,get_add,hnm,getD_none] at hi
      split_ifs at hi
      · obtain ⟨-,rfl⟩ := Prod.mk.inj (some_inj.1 hi)
        exact h.subset hin
      · exact h.deleted name i hi
  · rwa [deleteIndexOf_of_notMem hin]

private theorem indexChange_foldl_deleteIndexOf (i : List Nat) : IndexChange os tx
      (i.foldl (fun tx index => (tx.deleteIndexOf os index).1) tx) := by
  induction i generalizing tx with
  | nil => exact IndexChange.refl
  | cons index i ih => exact IndexChange.trans indexChange_deleteIndexOf ih

theorem indexChange_deleteAllIndexes (o : VisitingOrders Name) :
    IndexChange os tx (tx.deleteAllIndexes o os) := indexChange_foldl_deleteIndexOf _

theorem IndexesLogged.foldl_deleteIndexOf
    (h : tx.IndexesLogged schema os)
    (hs : tx.deletedObjectStores.get (tx.objectStores os).name = none)
    {ind : List Nat} (hf : ∀ index ∈ ind, index ∈ (tx.objectStores os).indexesByIdentifier →
        tx.deletedIndexes.get ((tx.objectStores os).indexNames index) = none) :
    (ind.foldl (fun tx index => (tx.deleteIndexOf os index).1) tx).IndexesLogged
      schema os := by
  induction ind generalizing tx with
  | nil => exact h
  | cons index ind ih =>
    have hc : IndexChange os tx (tx.deleteIndexOf os index).1 := indexChange_deleteIndexOf
    simp only [foldl_cons]
    refine ih (h.deleteIndexOf hs (hf index mem_cons_self)) ?_ fun i hi hm => ?_
    · rw [hc.deletedObjectStores,hc.name]
      exact hs
    · by_cases hin : index ∈ (tx.objectStores os).indexesByIdentifier
      · obtain ⟨hs,-,hdl⟩ := deleteIndexOf_of_mem h.agrees hin hs
        rw [hs,eraseIndex,mem_erase] at hm
        rw [hs,hdl,get_add,if_neg]
        · exact hf i (mem_cons_of_mem _ hi) hm.2
        · exact fun hn => hm.1 (h.agrees.eq_of_name hm.2 hin hn)
      · rw [deleteIndexOf_of_notMem hin] at hm ⊢
        exact hf i (mem_cons_of_mem _ hi) hm

private theorem agrees_renameIndex (h : store.Agrees) (hin : index ∈ store.indexesByIdentifier) {newName : Name}
    (hfr : newName = store.indexNames index ∨ store.indexesByName.get newName = none) :
    (store.renameIndex index newName).Agrees := by
  have hl : store.indexesByName.get (store.indexNames index) = some index := (h.byName _ _).2 ⟨hin,rfl⟩
  have hmp : (store.renameIndex index newName).indexMap = store.indexMap.set index newName := by
    have he : (index, store.indexNames index) ∈ store.indexMap.entries :=
      get_eq_some_iff.1 ((h.info _ _).2 ⟨hin,rfl⟩)
    rw [StoreSchema.renameIndex]
    cases hf : store.indexMap.entries.find? fun e => e.2 = store.indexNames index with
    | none => exact absurd (decide_eq_true rfl) (find?_eq_none.1 hf _ he)
    | some e =>
      have hn : e.2 = store.indexNames index := by simpa using find?_some hf
      have hm := (h.info e.1 e.2).1 (get_eq_some_iff.2 (mem_of_find?_eq_some hf))
      simp only [h.eq_of_name hm.1 hin (hm.2.trans hn)]
  have hb : (store.renameIndex index newName).indexesByName =
      (store.indexesByName.remove (store.indexNames index)).set newName index := by
    simp only [StoreSchema.renameIndex,hl]
  have ho (i : Nat) (hi : i ∈ store.indexesByIdentifier) (hn : store.indexNames i = newName) : i = index := by
    rcases hfr with hs | hnn
    · exact h.eq_of_name hi hin (hn.trans hs)
    · cases hnn.symm.trans ((h.byName _ _).2 ⟨hi,hn⟩)
  constructor
  · intro name i
    rw [hb,get_set,get_remove]
    simp only [StoreSchema.renameIndex]
    by_cases hi : i = index
    · subst hi
      rw [update_self]
      by_cases hn : name = newName
      · simp [hn,hin]
      · refine iff_of_false ?_ fun ha => hn ha.2.symm
        split_ifs with hol
        · simp
        · rw [h.byName]
          exact fun ha => hol ha.2.symm
    · rw [update_of_ne hi]
      by_cases hn : name = newName
      · rw [if_pos hn]
        exact iff_of_false (fun heq => hi (some_inj.1 heq).symm) fun ha => hi (ho i ha.1 (ha.2.trans hn))
      · split_ifs with hol
        · exact iff_of_false (by simp) fun ha => hi (h.eq_of_name ha.1 hin (ha.2.trans hol))
        · exact h.byName name i
  · intro i name
    rw [hmp,get_set]
    simp only [StoreSchema.renameIndex]
    by_cases hi : i = index
    · subst hi
      simp [hin]
    · rw [if_neg hi,update_of_ne hi]
      exact h.info i name

/-- A request that is refused is always allowed. -/
def Allowed (transaction : VersionChange Name) : SchemaRequest Name → Prop
  | .createObjectStore _ name =>
    transaction.databaseInfo.hasObjectStore name ∨ transaction.objectStoresByName name = none
  | .deleteObjectStore objectStore =>
    (transaction.databaseInfo.objectStoreMap.get objectStore).isSome →
      objectStore ∈ transaction.objectStoresByIdentifier →
        let store := transaction.objectStores objectStore
        if objectStore ∈ transaction.versionChangeAddedObjectStores then
          transaction.objectStoresByName store.name = some objectStore ∧
            (transaction.deletedObjectStores.get store.name).isSome
        else
          (∀ s, transaction.objectStoresByName store.name = some s → s = objectStore) ∧
            transaction.deletedObjectStores.get store.name = none ∧
            ∀ index ∈ store.indexesByName.values, transaction.deletedIndexes.get (store.indexNames index) = none
  | .renameObjectStore _ _ => True
  | .createIndex objectStore _ _ populates =>
    objectStore ∈ transaction.objectStoresByIdentifier → populates →
      objectStore ∈ transaction.versionChangeAddedObjectStores
  | .deleteIndex objectStore index =>
    let store := transaction.objectStores objectStore
    objectStore ∈ transaction.objectStoresByIdentifier →
      objectStore ∉ transaction.versionChangeAddedObjectStores → index ∈ store.indexesByIdentifier →
        transaction.deletedObjectStores.get store.name = none ∧
          transaction.deletedIndexes.get (store.indexNames index) = none
  | .renameIndex objectStore index newName =>
    let store := transaction.objectStores objectStore
    objectStore ∈ transaction.objectStoresByIdentifier →
      objectStore ∉ transaction.versionChangeAddedObjectStores → index ∈ store.indexesByIdentifier →
        newName = store.indexNames index ∨ store.indexesByName.get newName = none

theorem Undoable.createIndex (h : Undoable old tx) {ps : Bool}
    (ha : tx.Allowed (.createIndex os skipped name ps)) :
    Undoable old (tx.createIndex os skipped name ps).1 := by
  by_cases hr : os ∈ tx.objectStoresByIdentifier
  · cases ps with
    | false => simpa [VersionChange.createIndex,hr] using h
    | true =>
      refine h.of_indexChange indexChange_createIndex fun ho => absurd ho (h.added _ ?_)
      exact ha hr rfl
  · simpa [VersionChange.createIndex,hr] using h

theorem Undoable.deleteIndex (h : Undoable old tx) (hal : tx.Allowed (.deleteIndex os index)) :
    Undoable old (tx.deleteIndex os index).1 := by
  rw [VersionChange.deleteIndex]
  split
  · exact h
  next hr =>
    refine h.of_indexChange indexChange_deleteIndexOf fun ho => ?_
    by_cases hi : index ∈ (tx.objectStores os).indexesByIdentifier
    · obtain ⟨hs,hf⟩ := hal (not_not.1 hr) (fun ha => h.added _ ha ho) hi
      exact (h.indexes _ ho).deleteIndexOf hs fun _ => hf
    · rw [deleteIndexOf_of_notMem hi]
      exact h.indexes _ ho

/-- A renaming is refused or changes one index and logs its first name. -/
theorem renameIndex_cases (tx : VersionChange Name) (os index : Nat) (n : Name) :
    let tx' := (tx.renameIndex os index n).1
    tx' = tx ∨
      os ∈ tx.objectStoresByIdentifier ∧
        index ∈ (tx.objectStores os).indexesByIdentifier ∧
        tx'.objectStores os = (tx.objectStores os).renameIndex index n ∧
        tx'.originalIndexNames = tx.originalIndexNames.add (os, index) ((tx.objectStores os).indexNames index) ∧
        tx'.deletedIndexes = tx.deletedIndexes ∧ IndexChange os tx tx' := by
  rw [VersionChange.renameIndex]
  split
  · exact .inl rfl
  next inf hin =>
    dsimp only
    split
    · exact .inl rfl
    · split
      · exact .inl rfl
      next hr =>
        split
        · exact .inl rfl
        next hi =>
          refine .inr ⟨not_not.1 hr,not_not.1 hi,update_self ..,rfl,rfl,
            ⟨rfl,rfl,rfl,rfl,rfl,rfl,fun s => ?_,fun s hs => update_of_ne hs _ _,fun s hs i => ?_,
              fun _ _ _ _ => Iff.rfl⟩⟩
          · simp only [MemoryIDBBackingStore.setObjectStore]
            by_cases hs : s = os
            · rw [hs,update_self]
              rfl
            · rw [update_of_ne hs]
          · rw [get_add,if_neg fun he => hs (Prod.mk.inj he).1]

theorem Undoable.renameIndex (h : Undoable old tx) {n : Name}
    (hal : tx.Allowed (.renameIndex os index n)) :
    Undoable old (tx.renameIndex os index n).1 := by
  rcases renameIndex_cases tx os index n with
    hsm | ⟨hr,hin,hs,hn,hdl,hc⟩
  · rwa [hsm]
  · refine h.of_indexChange hc fun ho => ?_
    have hl := h.indexes _ ho
    have hf := hal hr (fun ha => h.added _ ha ho) hin
    refine ⟨hs ▸ agrees_renameIndex hl.agrees hin hf,?_,fun i hi => ?_,?_,?_⟩
    · rw [hs]
      exact hl.subset
    · rw [← hl.names i hi,firstIndexName,firstIndexName,hs,hn,get_add]
      simp only [StoreSchema.renameIndex,Prod.mk.injEq,true_and]
      by_cases he : i = index
      · simp [he]
      · simp [he]
    · rw [hs,hdl]
      exact hl.kept
    · rw [hdl]
      exact hl.deleted

omit [DecidableEq Name] in
private theorem maxObjectStoreID_renameObjectStore (inf : IDBDatabaseInfo Name) (i : Nat) (n : Name) :
    (inf.renameObjectStore i n).maxObjectStoreID = inf.maxObjectStoreID := by
  rw [IDBDatabaseInfo.renameObjectStore]
  split <;> rfl

private theorem maxObjectStoreID_deleteObjectStore (i : IDBDatabaseInfo Name) (name : Name) :
    (i.deleteObjectStore name).maxObjectStoreID = i.maxObjectStoreID := by
  rw [IDBDatabaseInfo.deleteObjectStore]
  split <;> rfl

/-- A renamed object store keeps its first name, also in the map of names. -/
theorem Undoable.renameObjectStore (h : Undoable old tx) (os : Nat) (n : Name) :
    Undoable old (tx.renameObjectStore os n).1 := by
  have hf (s : Nat) : (tx.renameObjectStore os n).1.firstStoreName s = tx.firstStoreName s := by
    rw [VersionChange.renameObjectStore]
    split
    · rfl
    · split
      · rfl
      · simp only [firstStoreName,MemoryIDBBackingStore.setObjectStore,get_add]
        by_cases hs : s = os
        · simp [hs]
        · simp [hs]
  rw [VersionChange.renameObjectStore] at hf ⊢
  split at hf
  next hi =>
    rw [if_pos hi]
    exact h
  next hi =>
    rw [if_neg hi]
    split at hf
    next hr =>
      rw [if_pos hr]
      exact h
    next hr =>
      rw [if_neg hr]
      rw [not_not] at hr
      refine ⟨fun s hs => ?_,h.added,h.registered,h.kept,h.deleted,fun s hs => (hf s).trans (h.names s hs),?_,?_,
        fun s hs => ?_⟩
      · rw [maxObjectStoreID_renameObjectStore]
        by_cases he : s = os
        · exact h.bounded s ((h.registered s (he ▸ hr)).imp_right .inl)
        · rw [get_add,if_neg he] at hs
          exact h.bounded s hs
      · simp only [hf]
        exact h.byName
      · simp only [hf]
        exact h.byName_firstStoreName
      · by_cases he : s = os
        · subst he
          exact (h.indexes s hs).congr (update_self ..) (fun _ => rfl) fun _ _ => .rfl
        · exact (h.indexes s hs).congr (update_of_ne he ..) (fun _ => rfl) fun _ _ => .rfl

theorem Undoable.createObjectStore (h : Undoable old tx) (hal : tx.Allowed (.createObjectStore skipped name)) :
    Undoable old (tx.createObjectStore skipped name).1 := by
  rw [VersionChange.createObjectStore]
  split
  · exact h
  next hi =>
    have hnm := hal.resolve_left hi
    generalize hid : tx.databaseInfo.maxObjectStoreID + 1 + skipped = identifier
    have hf (s : Nat) (hs : s ∈ old.objectStoresByIdentifier ∨ s ∈ tx.versionChangeAddedObjectStores ∨
        (tx.originalObjectStoreNames.get s).isSome) : s ≠ identifier := by
      have := h.bounded s hs
      omega
    have hr (s : Nat) (hs : s ∈ tx.objectStoresByIdentifier) : s ≠ identifier :=
      hf s ((h.registered s hs).imp_right .inl)
    have hl : tx.originalObjectStoreNames.get identifier = none := by
      by_contra hsm
      exact hf identifier (.inr (.inr (isSome_iff_ne_none.2 hsm))) rfl
    dsimp only [MemoryIDBBackingStore.registerObjectStore,MemoryIDBBackingStore.setObjectStore,
      IDBDatabaseInfo.addExistingObjectStore]
    simp only [update_self,create]
    refine ⟨fun s hs => ?_,fun s hs => ?_,fun s hs => ?_,fun s hs => ?_,h.deleted,fun s hs => ?_,
      fun n s hs => ?_,fun s hs => ?_,fun s hs => ?_⟩
    · dsimp only at hs ⊢
      rw [HashSet.mem_add] at hs
      by_cases he : s = identifier
      · omega
      · have := h.bounded s (by tauto)
        omega
    · rcases mem_add.1 hs with hs | rfl
      · exact h.added s hs
      · exact fun ho => hf s (.inl ho) rfl
    · rcases mem_insert.1 hs with rfl | hs
      · exact .inr (mem_add.2 (.inr rfl))
      · exact (h.registered s hs).imp_right fun ha => mem_add.2 (.inl ha)
    · exact (h.kept s hs).imp_left fun hm => mem_insert_of_mem hm
    · rw [← h.names s hs]
      simp only [firstStoreName,update_of_ne (hf s (.inl hs))]
    · dsimp only at hs
      by_cases hn : n = name
      · subst hn
        rw [update_self] at hs
        obtain rfl := some_inj.1 hs
        exact ⟨by simp [firstStoreName,hl],.inr (mem_insert_self ..)⟩
      · rw [update_of_ne hn] at hs
        obtain ⟨hfr,hm⟩ := h.byName n s hs
        have hne : s ≠ identifier := hm.elim (fun ho => hf s (.inl ho)) (hr s)
        exact ⟨by simpa only [firstStoreName,update_of_ne hne] using hfr,hm.imp_right mem_insert_of_mem⟩
    · by_cases he : s = identifier
      · simp [firstStoreName,he,hl]
      · have hb := h.byName_firstStoreName s (mem_of_mem_insert_of_ne hs he)
        simp only [firstStoreName,update_of_ne he] at hb ⊢
        rw [update_of_ne]
        · exact hb
        · rintro rfl
          cases hnm.symm.trans hb
    · exact (h.indexes s hs).congr (update_of_ne (hf s (.inl hs)) ..) (fun _ => rfl) fun _ _ => .rfl

/-- While the indexes of a deleted object store are deleted. -/
def unregistered (transaction : VersionChange Name) (objectStore : Nat) : VersionChange Name :=
  let name := (transaction.objectStores objectStore).name
  let backing := transaction.toMemoryIDBBackingStore.unregisterObjectStore objectStore
  { transaction with
    toMemoryIDBBackingStore := { backing with databaseInfo := backing.databaseInfo.deleteObjectStore name } }

section
variable (h : Undoable old tx)
include h

private theorem indexesLogged_deleteAllIndexes (o : VisitingOrders Name)
    (hf : os ∈ old.objectStoresByIdentifier → tx.deletedObjectStores.get (tx.objectStores os).name = none ∧
        ∀ index ∈ (tx.objectStores os).indexesByName.values,
          tx.deletedIndexes.get ((tx.objectStores os).indexNames index) = none)
    {s : Nat} (hs : s ∈ old.objectStoresByIdentifier) :
    ((unregistered tx os).deleteAllIndexes o os).IndexesLogged (old.objectStores s) s := by
  have hl : (unregistered tx os).IndexesLogged (old.objectStores s) s :=
    (h.indexes s hs).congr rfl (fun _ => rfl) fun _ _ => .rfl
  by_cases he : s = os
  · subst he
    exact hl.foldl_deleteIndexOf (hf hs).1 fun index hi _ =>
      (hf hs).2 index ((o.indexes.visit_perm _).mem_iff.1 hi)
  · have hc := (@indexChange_deleteAllIndexes _ _ (unregistered tx os) os o)
    exact hl.congr (hc.objectStores s he) (hc.originalIndexNames s he) (hc.deletedIndexes s he)

/-- An allowed deletion of an object store: its name leads to no other one, and it is logged if it is old. -/
theorem deleteObjectStore_allowed (hi : (tx.databaseInfo.objectStoreMap.get os).isSome)
    (hr : os ∈ tx.objectStoresByIdentifier)
    (hal : tx.Allowed (.deleteObjectStore os)) :
    let name := (tx.objectStores os).name
    (∀ s, tx.objectStoresByName name = some s → s = os) ∧
      (os ∈ old.objectStoresByIdentifier ∨ tx.objectStoresByName name = some os) ∧
      ∀ n s, (tx.deletedObjectStores.add name os).get n = some s ↔ tx.deletedObjectStores.get n = some s ∨
          os ∈ old.objectStoresByIdentifier ∧ n = name ∧ s = os := by
  intro name
  have hc := hal hi hr
  by_cases ha : os ∈ tx.versionChangeAddedObjectStores
  · rw [if_pos ha] at hc
    obtain ⟨hb,hdl⟩ := hc
    have hnw := h.added _ ha
    refine ⟨fun s hs => some_inj.1 (hs.symm.trans hb),.inr hb,fun n s => ?_⟩
    obtain ⟨o,ho⟩ := isSome_iff_exists.1 hdl
    rw [get_add]
    by_cases hn : n = name
    · simp [hn,name,ho,hnw]
    · simp [hn]
  · rw [if_neg ha] at hc
    obtain ⟨hb,hdl,-⟩ := hc
    have hol := (h.registered _ hr).resolve_right ha
    refine ⟨hb,.inl hol,fun n s => ?_⟩
    rw [get_add]
    by_cases hn : n = name
    · simp [hn,name,hdl,hol,eq_comm]
    · simp [hn]

/-- An object store that is no longer registered is logged, once its indexes are. -/
theorem Undoable.of_unregistered {d : VersionChange Name}
    (ho : ∀ s, tx.objectStoresByName (tx.objectStores os).name = some s → s = os)
    (hsm : os ∈ old.objectStoresByIdentifier ∨ tx.objectStoresByName (tx.objectStores os).name = some os)
    (hdl : ∀ n s, (tx.deletedObjectStores.add (tx.objectStores os).name os).get n =
        some s ↔ tx.deletedObjectStores.get n = some s ∨
          os ∈ old.objectStoresByIdentifier ∧ n = (tx.objectStores os).name ∧ s = os)
    (hc : IndexChange os (unregistered tx os) d)
    (hl : ∀ s ∈ old.objectStoresByIdentifier, d.IndexesLogged (old.objectStores s) s) :
    Undoable old { d with
      deletedObjectStores := d.deletedObjectStores.add (d.objectStores os).name os } := by
  have hf (s : Nat) : d.firstStoreName s = tx.firstStoreName s := hc.firstStoreName s
  have hmx : d.databaseInfo.maxObjectStoreID = tx.databaseInfo.maxObjectStoreID :=
    hc.maxObjectStoreID.trans (maxObjectStoreID_deleteObjectStore ..)
  have hi : d.objectStoresByIdentifier = tx.objectStoresByIdentifier.erase os :=
    hc.objectStoresByIdentifier
  have hnm : d.objectStoresByName = update tx.objectStoresByName (tx.objectStores os).name none :=
    hc.objectStoresByName
  have hdl' : d.deletedObjectStores.add (d.objectStores os).name os =
      tx.deletedObjectStores.add (tx.objectStores os).name os := by
    rw [hc.deletedObjectStores,hc.name]
    rfl
  refine ⟨?_,?_,fun s hs => ?_,fun s hs => ?_,fun n s hs => ?_,fun s hs => (hf s).trans (h.names s hs),
    fun n s hs => ?_,fun s hs => ?_,fun s hs => (hl s hs).congr rfl (fun _ => rfl) fun _ _ => .rfl⟩
  · rw [hmx,hc.added,hc.originalObjectStoreNames]
    exact h.bounded
  · rw [hc.added]
    exact h.added
  · rw [hc.added]
    rw [hi] at hs
    exact h.registered s (mem_of_mem_erase hs)
  · simp only [hdl',hdl,hi,mem_erase]
    by_cases he : s = os
    · subst he
      exact .inr ⟨_,.inr ⟨hs,rfl,rfl⟩⟩
    · exact (h.kept s hs).imp (fun hm => ⟨he,hm⟩) (Exists.imp fun _ => .inl)
  · simp only [hdl',hdl] at hs
    rcases hs with hs | ⟨hol,-,rfl⟩
    · exact h.deleted n s hs
    · exact hol
  · simp only [hnm,hi,mem_erase] at hs ⊢
    have hn : n ≠ (tx.objectStores os).name := by
      rintro rfl
      simp at hs
    rw [update_of_ne hn] at hs
    obtain ⟨hna,hm⟩ := h.byName n s hs
    refine ⟨(hf s).trans hna,?_⟩
    by_cases he : s = os
    · subst he
      exact .inl (hsm.resolve_right fun hsl => hn (hna.symm.trans (h.byName _ _ hsl).1))
    · exact hm.imp_right fun hm => ⟨he,hm⟩
  · simp only [hnm,hi,mem_erase] at hs ⊢
    have hb := h.byName_firstStoreName s hs.2
    change update _ _ _ (d.firstStoreName s) = _
    rw [hf,update_of_ne]
    · exact hb
    · intro hna
      exact hs.1 (ho s (hna ▸ hb))

theorem Undoable.deleteObjectStore (o : VisitingOrders Name)
    (ha : tx.Allowed (.deleteObjectStore os)) :
    Undoable old (tx.deleteObjectStore o os).1 := by
  rw [VersionChange.deleteObjectStore]
  split
  · exact h
  next hi =>
    split
    · exact h
    next hr =>
      rw [not_not] at hr
      rw [Bool.not_eq_true,isNone_eq_false_iff] at hi
      obtain ⟨ho,hsm,hdl⟩ := deleteObjectStore_allowed h hi hr ha
      have hf (hol : os ∈ old.objectStoresByIdentifier) :
          tx.deletedObjectStores.get (tx.objectStores os).name = none ∧
            ∀ index ∈ (tx.objectStores os).indexesByName.values,
              tx.deletedIndexes.get ((tx.objectStores os).indexNames index) = none := by
        have hc := ha hi hr
        rw [if_neg fun had => h.added _ had hol] at hc
        exact hc.2
      exact h.of_unregistered ho hsm hdl (indexChange_deleteAllIndexes o) fun s hs =>
        indexesLogged_deleteAllIndexes h o hf hs

theorem Undoable.perform (o : VisitingOrders Name) {r : SchemaRequest Name}
    (ha : tx.Allowed r) : Undoable old (tx.perform o r) := by
  cases r with
  | createObjectStore skipped name => exact h.createObjectStore ha
  | deleteObjectStore os => exact h.deleteObjectStore o ha
  | renameObjectStore os n => exact h.renameObjectStore os n
  | createIndex os skipped name ps => exact h.createIndex ha
  | deleteIndex os index => exact h.deleteIndex ha
  | renameIndex os index n => exact h.renameIndex ha

end

/-- Every request is allowed when it is made. -/
def AllowedRun (orders : VisitingOrders Name) (backing : MemoryIDBBackingStore Name)
    (requests : List (SchemaRequest Name)) : Prop :=
  Guarded (perform orders) Allowed (start backing) requests

theorem undoable_run (h : old.WellFormed) {o : VisitingOrders Name} {rs : List (SchemaRequest Name)}
    (hal : AllowedRun o old rs) : Undoable old (run o old rs) :=
  Guarded.invariant (fun _ _ hu ha => hu.perform o ha) hal (undoable_start h)

end VersionChange
end WebKit.IndexedDB
