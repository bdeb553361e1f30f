import WebKit.IndexedDB.SchemaLog

/-! Aborting a version-change transaction: what each phase does to a schema, and that together
they restore the old one when every change was logged. -/
namespace WebKit.IndexedDB

open Base List MemoryIDBBackingStore StoreSchema Table Function Option
open HashMap hiding get_eq_some_iff

variable {Name : Type*} [DecidableEq Name]

namespace MemoryIDBBackingStore
variable {back : MemoryIDBBackingStore Name}

omit [DecidableEq Name] in
private theorem foldl_restoreIndexName {es : List ((Nat × Nat) × Name)} (h : (es.map Prod.fst).Nodup) :
    es.foldl restoreIndexName back = { back with
        objectStores := fun s =>
          { back.objectStores s with
            indexNames := fun i => (get (s, i) es).getD ((back.objectStores s).indexNames i) } } := by
  induction es generalizing back with
  | nil => rfl
  | cons e es ih =>
    obtain ⟨⟨os,ind⟩,name⟩ := e
    obtain ⟨hm,hn⟩ := nodup_cons.1 h
    rw [foldl_cons,ih hn]
    simp only [restoreIndexName,setObjectStore,mk.injEq,true_and,and_true,HashMap.get]
    funext s
    by_cases hs : s = os
    · subst hs
      rw [update_self]
      congr 1
      funext i
      by_cases hi : i = ind
      · subst hi
        simp [get_eq_none hm]
      · simp [hi]
    · simp [hs]

omit [DecidableEq Name] in
private theorem foldl_restoreObjectStoreName {es : List (Nat × Name)} (h : (es.map Prod.fst).Nodup) :
    es.foldl restoreObjectStoreName back = { back with
        objectStores := fun s =>
          { back.objectStores s with name := (get s es).getD (back.objectStores s).name } } := by
  induction es generalizing back with
  | nil => rfl
  | cons e es ih =>
    obtain ⟨os,name⟩ := e
    obtain ⟨hm,hn⟩ := nodup_cons.1 h
    rw [foldl_cons,ih hn]
    simp only [restoreObjectStoreName,setObjectStore,mk.injEq,true_and,and_true,HashMap.get]
    funext s
    by_cases hs : s = os
    · subst hs
      simp [get_eq_none hm]
    · simp [hs]

private theorem foldl_removeObjectStore (back : MemoryIDBBackingStore Name) (r : List Nat) :
    let result := r.foldl removeObjectStoreForVersionChangeAbort back
    result.objectStores = back.objectStores ∧
      (∀ s, s ∈ result.objectStoresByIdentifier ↔ s ∈ back.objectStoresByIdentifier ∧ s ∉ r) ∧
      ∀ name s, result.objectStoresByName name = some s ↔ back.objectStoresByName name = some s ∧
        ∀ t ∈ r, t ∈ back.objectStoresByIdentifier → (back.objectStores t).name ≠ name := by
  induction r generalizing back with
  | nil => simp
  | cons os r ih =>
    rw [foldl_cons,removeObjectStoreForVersionChangeAbort]
    split
    next hmm =>
      obtain ⟨hst,hi,hn⟩ := ih back
      refine ⟨hst,fun s => (hi s).trans ?_,fun name s => (hn name s).trans ?_⟩
      · rw [mem_cons,not_or]
        exact and_congr_right fun hs => (and_iff_right fun (he : s = os) => hmm (he ▸ hs)).symm
      · rw [forall_mem_cons]
        exact and_congr_right fun _ => (and_iff_right fun hs => absurd hs hmm).symm
    next hmm =>
      obtain ⟨hst,hi,hn⟩ := ih (back.unregisterObjectStore os)
      simp only [unregisterObjectStore] at hst hi hn ⊢
      refine ⟨hst,fun s => (hi s).trans ?_,fun name s => (hn name s).trans ?_⟩
      · rw [Finset.mem_erase,mem_cons]
        tauto
      · rw [forall_mem_cons]
        by_cases hnm : name = (back.objectStores os).name
        · subst hnm
          simp [hmm]
        · rw [update_of_ne hnm]
          simp only [Finset.mem_erase]
          refine and_congr_right fun _ => ⟨fun ha => ⟨fun _ => Ne.symm hnm,fun t ht hm => ?_⟩,fun ha t ht hm =>
            ha.2 t ht hm.2⟩
          by_cases he : t = os
          · exact he ▸ Ne.symm hnm
          · exact ha t ht ⟨he,hm⟩

private theorem foldl_registerObjectStore {r : List Nat}
    (h : ∀ s ∈ r, ∀ t ∈ r, (back.objectStores s).name = (back.objectStores t).name → s = t) :
    let result := r.foldl registerObjectStore back
    result.objectStores = back.objectStores ∧
      (∀ s, s ∈ result.objectStoresByIdentifier ↔ s ∈ back.objectStoresByIdentifier ∨ s ∈ r) ∧
      ∀ name s, result.objectStoresByName name = some s ↔ s ∈ r ∧ (back.objectStores s).name = name ∨
          back.objectStoresByName name = some s ∧ ∀ t ∈ r, (back.objectStores t).name ≠ name := by
  induction r generalizing back with
  | nil => simp
  | cons os r ih =>
    obtain ⟨hst,hi,hn⟩ := @ih (back.registerObjectStore os)
      fun s hs t ht => h s (mem_cons_of_mem _ hs) t (mem_cons_of_mem _ ht)
    simp only [registerObjectStore] at hst hi hn ⊢
    refine ⟨hst,fun s => (hi s).trans ?_,fun name s => (hn name s).trans ?_⟩
    · rw [Finset.mem_insert,mem_cons]
      tauto
    · rw [forall_mem_cons,mem_cons]
      by_cases hnm : name = (back.objectStores os).name
      · subst hnm
        rw [update_self]
        constructor
        · rintro (⟨hs,hsm⟩ | ⟨hs,-⟩)
          · exact .inl ⟨.inr hs,hsm⟩
          · exact .inl ⟨.inl (some_inj.1 hs).symm,by rw [some_inj.1 hs]⟩
        · rintro (⟨rfl | hs,hsm⟩ | ⟨-,hne,-⟩)
          · by_cases hs : s ∈ r
            · exact .inl ⟨hs,rfl⟩
            · refine .inr ⟨rfl,fun t ht he => hs ?_⟩
              rwa [← h t (mem_cons_of_mem _ ht) s mem_cons_self he]
          · exact .inl ⟨hs,hsm⟩
          · exact absurd rfl hne
      · rw [update_of_ne hnm]
        have hsl : s = os → (back.objectStores s).name ≠ name := fun he => he ▸ Ne.symm hnm
        have hne := Ne.symm hnm
        tauto

end MemoryIDBBackingStore

/-- An object store on the way back, with some indexes still to be restored. -/
structure Restoring (schema store : StoreSchema Name) (remaining : Nat → Prop) : Prop where
  agrees : store.Agrees
  names : ∀ i ∈ schema.indexesByIdentifier, store.indexNames i = schema.indexNames i
  subset : store.indexesByIdentifier ⊆ schema.indexesByIdentifier
  kept : ∀ i ∈ schema.indexesByIdentifier, i ∈ store.indexesByIdentifier ∨ remaining i

namespace Restoring
variable {schema store : StoreSchema Name} {remaining : Nat → Prop}

private theorem hasIndex_iff (hs : schema.Agrees) (h : Restoring schema store remaining) {ind : Nat}
    (hin : ind ∈ schema.indexesByIdentifier) :
    store.hasIndex (store.indexNames ind) ↔ ind ∈ store.indexesByIdentifier := by
  rw [hasIndex,find?_isSome]
  constructor
  · rintro ⟨⟨i,n⟩,he,hn⟩
    obtain ⟨hi,rfl⟩ := (h.agrees.info i n).1 (get_eq_some_iff.2 he)
    rw [decide_eq_true_eq,h.names i (h.subset hi),h.names ind hin] at hn
    rwa [← hs.eq_of_name (h.subset hi) hin hn]
  · intro hm
    exact ⟨(ind, store.indexNames ind),get_eq_some_iff.1 ((h.agrees.info _ _).2 ⟨hm,rfl⟩),by simp⟩

private theorem maybeRestoreDeletedIndex (hs : schema.Agrees) {index : Nat}
    (h : Restoring schema store fun i => i = index ∨ remaining i) (hin : index ∈ schema.indexesByIdentifier) :
    Restoring schema (store.maybeRestoreDeletedIndex index) remaining := by
  rw [StoreSchema.maybeRestoreDeletedIndex]
  by_cases hm : index ∈ store.indexesByIdentifier
  · rw [if_pos ((hasIndex_iff hs h hin).2 hm)]
    refine ⟨h.agrees,h.names,h.subset,fun i hi => ?_⟩
    rcases h.kept i hi with hi | rfl | hi
    · exact .inl hi
    · exact .inl hm
    · exact .inr hi
  · rw [if_neg (mt (hasIndex_iff hs h hin).1 hm)]
    have ho (i : Nat) (hi : i ∈ store.indexesByIdentifier) : store.indexNames i ≠ store.indexNames index := by
      intro hn
      rw [h.names i (h.subset hi),h.names index hin] at hn
      exact hm (hs.eq_of_name (h.subset hi) hin hn ▸ hi)
    simp only [registerIndex,addExistingIndex]
    refine ⟨⟨fun n i => ?_,fun i n => ?_⟩,h.names,Finset.insert_subset hin h.subset,fun i hi => ?_⟩
    · rw [get_set,Finset.mem_insert]
      by_cases hn : n = store.indexNames index
      · rw [if_pos hn,hn]
        constructor
        · intro he
          obtain rfl := some_inj.1 he
          exact ⟨.inl rfl,rfl⟩
        · rintro ⟨rfl | hi,he⟩
          · rfl
          · exact absurd he (ho i hi)
      · rw [if_neg hn,h.agrees.byName]
        refine and_congr_left fun he => (or_iff_right ?_).symm
        rintro rfl
        exact hn he.symm
    · rw [get_set,Finset.mem_insert]
      by_cases hi : i = index
      · simp [hi]
      · simp [hi,h.agrees.info]
    · rcases h.kept i hi with hi | rfl | hi
      · exact .inl (Finset.mem_insert_of_mem hi)
      · exact .inl (Finset.mem_insert_self ..)
      · exact .inr hi

/-- Nothing is left to restore. -/
theorem eq (hs : schema.Agrees) (h : Restoring schema store fun _ => False) :
    store.indexesByIdentifier = schema.indexesByIdentifier ∧
      ∀ name, store.indexesByName.get name = schema.indexesByName.get name := by
  have hid : store.indexesByIdentifier = schema.indexesByIdentifier :=
    h.subset.antisymm fun i hi => (h.kept i hi).resolve_right id
  refine ⟨hid,fun name => ?_⟩
  ext i
  rw [h.agrees.byName,hs.byName,hid]
  exact and_congr_right fun hi => by rw [h.names i hi]

end Restoring

namespace MemoryIDBBackingStore
variable {old : MemoryIDBBackingStore Name}

private theorem foldl_restoreDeletedIndex (back : MemoryIDBBackingStore Name) (ho : old.WellFormed) {d : List (Nat × Nat)}
    (hdl : ∀ en ∈ d, en.1 ∈ old.objectStoresByIdentifier →
      en.2 ∈ (old.objectStores en.1).indexesByIdentifier)
    (h : ∀ s ∈ old.objectStoresByIdentifier,
      Restoring (old.objectStores s) (back.objectStores s) fun i => (s, i) ∈ d) :
    let result := d.foldl restoreDeletedIndex back
    result.objectStoresByIdentifier = back.objectStoresByIdentifier ∧
      result.objectStoresByName = back.objectStoresByName ∧
      (∀ s, (result.objectStores s).name = (back.objectStores s).name) ∧
      ∀ s ∈ old.objectStoresByIdentifier, Restoring (old.objectStores s) (result.objectStores s) fun _ => False := by
  induction d generalizing back with
  | nil =>
    refine ⟨rfl,rfl,fun _ => rfl,fun s hs => ?_⟩
    simpa using h s hs
  | cons en d ih =>
    obtain ⟨os,ind⟩ := en
    have hnm (s : Nat) : ((back.restoreDeletedIndex (os, ind)).objectStores s).name = (back.objectStores s).name := by
      simp only [restoreDeletedIndex,setObjectStore,maybeRestoreDeletedIndex]
      by_cases hs : s = os
      · subst hs
        rw [update_self]
        split_ifs <;> rfl
      · rw [update_of_ne hs]
    obtain ⟨hi,hn,hsn,hr⟩ := ih (back.restoreDeletedIndex (os, ind))
      (fun e he => hdl e (mem_cons_of_mem _ he)) (fun s hs => by
        simp only [restoreDeletedIndex,setObjectStore]
        by_cases heq : s = os
        · subst heq
          rw [update_self]
          refine Restoring.maybeRestoreDeletedIndex (ho.agrees s hs) ?_ (hdl _ mem_cons_self hs)
          simpa using h s hs
        · simpa [heq] using h s hs)
    exact ⟨hi,hn,fun s => (hsn s).trans (hnm s),hr⟩

end MemoryIDBBackingStore

namespace VersionChange
variable {old : MemoryIDBBackingStore Name} {tx : VersionChange Name}

/-- An index of an older object store is registered under its first name. -/
def Restorable (transaction : VersionChange Name) : Prop :=
  ∀ s ∉ transaction.versionChangeAddedObjectStores, ∀ i ∈ (transaction.objectStores s).indexesByIdentifier,
    ∀ name ∈ transaction.originalIndexNames.get (s, i), (transaction.objectStores s).indexNames i = name

/-- The schema with all names put back. -/
def renamedBack (transaction : VersionChange Name) : MemoryIDBBackingStore Name :=
  { transaction.toMemoryIDBBackingStore with
    objectStores := fun s =>
      { transaction.objectStores s with
        name := transaction.firstStoreName s
        indexNames := transaction.firstIndexName s } }

omit [DecidableEq Name] in
private theorem foldl_restoreNames (os : VisitingOrders Name) (tx : VersionChange Name) :
    (os.originalObjectStoreNames.visit tx.originalObjectStoreNames.entries).foldl
        restoreObjectStoreName
        ((os.originalIndexNames.visit tx.originalIndexNames.entries).foldl
          restoreIndexName tx.toMemoryIDBBackingStore) =
      tx.renamedBack := by
  have hi := os.originalIndexNames.visit_perm tx.originalIndexNames.entries
  have hs := os.originalObjectStoreNames.visit_perm tx.originalObjectStoreNames.entries
  have hn := (hi.map Prod.fst).nodup_iff.2 tx.originalIndexNames.nodup
  have hns := (hs.map Prod.fst).nodup_iff.2 tx.originalObjectStoreNames.nodup
  rw [foldl_restoreIndexName hn,
    foldl_restoreObjectStoreName hns]
  simp only [get_perm hi hn,get_perm hs hns]
  rfl

/-- The object stores after removing the new ones and registering the deleted ones. -/
theorem Undoable.objectStores_restored (ho : old.WellFormed) (h : Undoable old tx)
    {a d : List Nat} (ha : ∀ s, s ∈ a ↔ s ∈ tx.versionChangeAddedObjectStores)
    (hdl : ∀ s, s ∈ d ↔ ∃ n, tx.deletedObjectStores.get n = some s) :
    let back := d.foldl registerObjectStore
      (a.foldl removeObjectStoreForVersionChangeAbort tx.renamedBack)
    back.objectStores = tx.renamedBack.objectStores ∧
      back.objectStoresByIdentifier = old.objectStoresByIdentifier ∧
      back.objectStoresByName = old.objectStoresByName := by
  obtain ⟨hst,hi,hn⟩ :=
    foldl_removeObjectStore tx.renamedBack a
  generalize a.foldl removeObjectStoreForVersionChangeAbort tx.renamedBack = r
    at hst hi hn ⊢
  have hlg (s : Nat) (hs : s ∈ d) : s ∈ old.objectStoresByIdentifier := by
    obtain ⟨n,hnm⟩ := (hdl s).1 hs
    exact h.deleted n s hnm
  have hu (s t : Nat) (hs : s ∈ old.objectStoresByIdentifier) (ht : t ∈ old.objectStoresByIdentifier)
      (hnm : tx.firstStoreName s = tx.firstStoreName t) : s = t := by
    rw [h.names s hs,h.names t ht] at hnm
    have hl := (ho.byName _ s).2 ⟨hs,hnm⟩
    rw [(ho.byName _ t).2 ⟨ht,rfl⟩] at hl
    exact (some_inj.1 hl).symm
  have hdf (s : Nat) (hs : s ∈ d) (t : Nat) (ht : t ∈ d)
      (hnm : (r.objectStores s).name = (r.objectStores t).name) : s = t := by
    rw [hst] at hnm
    exact hu s t (hlg s hs) (hlg t ht) hnm
  obtain ⟨hst',hi',hn'⟩ := foldl_registerObjectStore hdf
  refine ⟨hst'.trans hst,?_,?_⟩
  · ext s
    rw [hi',hi,ha,hdl]
    constructor
    · rintro (⟨hs,hnw⟩ | ⟨n,hs⟩)
      · exact (h.registered s hs).resolve_right hnw
      · exact h.deleted n s hs
    · intro hs
      exact (h.kept s hs).imp_left fun hm => ⟨hm,fun hnw => h.added s hnw hs⟩
  · funext n
    ext s
    rw [hn',hn,ho.byName,hst]
    simp only [renamedBack]
    constructor
    · rintro (⟨hs,hnm⟩ | ⟨⟨hs,hnw⟩,-⟩)
      · exact ⟨hlg s hs,by rw [← h.names s (hlg s hs),hnm]⟩
      · obtain ⟨hf,hm⟩ := h.byName n s hs
        have hsl : s ∈ old.objectStoresByIdentifier := by
          by_contra hnt
          have hm := hm.resolve_left hnt
          exact hnw s ((ha s).2 ((h.registered s hm).resolve_left hnt)) hm hf
        exact ⟨hsl,by rw [← h.names s hsl,hf]⟩
    · rintro ⟨hs,hnm⟩
      rw [← h.names s hs] at hnm
      by_cases hm : s ∈ d
      · exact .inl ⟨hm,hnm⟩
      · have hr : s ∈ tx.objectStoresByIdentifier :=
          (h.kept s hs).resolve_right fun hlo => hm ((hdl s).2 hlo)
        have hl := h.byName_firstStoreName s hr
        rw [hnm] at hl
        refine .inr ⟨⟨hl,fun t ht htm htn => ?_⟩,fun t ht htn => ?_⟩
        · have htl := h.byName_firstStoreName t htm
          rw [htn,hl] at htl
          obtain rfl := some_inj.1 htl
          exact h.added s ((ha s).1 ht) hs
        · exact hm (hu t s (hlg t ht) hs (htn.trans hnm.symm) ▸ ht)

private theorem IndexesLogged.restoring {schema : StoreSchema Name} {s : Nat} (h : tx.IndexesLogged schema s)
    (hr : ∀ i ∈ (tx.objectStores s).indexesByIdentifier,
      ∀ n ∈ tx.originalIndexNames.get (s, i), (tx.objectStores s).indexNames i = n)
    {deleted : List (Nat × Nat)}
    (hdl : ∀ e, e ∈ deleted ↔ ∃ n, tx.deletedIndexes.get n = some e) :
    Restoring schema (tx.renamedBack.objectStores s) fun i => (s, i) ∈ deleted := by
  have hn (i : Nat) (hi : i ∈ (tx.objectStores s).indexesByIdentifier) :
      tx.firstIndexName s i = (tx.objectStores s).indexNames i := by
    rw [firstIndexName]
    cases hnm : tx.originalIndexNames.get (s, i) with
    | none => rfl
    | some n => exact (hr i hi n hnm).symm
  simp only [renamedBack,hdl]
  refine ⟨⟨fun n i => (h.agrees.byName n i).trans ?_,fun i n => (h.agrees.info i n).trans ?_⟩,h.names,
    h.subset,h.kept⟩
  · exact and_congr_right fun hi => by rw [← hn i hi]
  · exact and_congr_right fun hi => by rw [← hn i hi]

/-- Aborting an allowed run restores the object stores and their indexes, by identifier and by
name. -/
theorem abort_restores_schema (hold : old.WellFormed) {orders : VisitingOrders Name}
    {requests : List (SchemaRequest Name)} (hallowed : AllowedRun orders old requests)
    (hrestorable : (run orders old requests).Restorable) :
    let restored := (run orders old requests).abort orders
    restored.objectStoresByIdentifier = old.objectStoresByIdentifier ∧
      restored.objectStoresByName = old.objectStoresByName ∧
      ∀ s ∈ old.objectStoresByIdentifier, (restored.objectStores s).name = (old.objectStores s).name ∧
          (restored.objectStores s).indexesByIdentifier = (old.objectStores s).indexesByIdentifier ∧
          ∀ name, (restored.objectStores s).indexesByName.get name = (old.objectStores s).indexesByName.get name := by
  have h := undoable_run hold hallowed
  generalize run orders old requests = transaction at h hrestorable ⊢
  have ha (s : Nat) : s ∈ orders.addedObjectStores.visit transaction.versionChangeAddedObjectStores ↔
      s ∈ transaction.versionChangeAddedObjectStores := (orders.addedObjectStores.visit_perm _).mem_iff
  have hdl (s : Nat) : s ∈ orders.deletedObjectStores.visit transaction.deletedObjectStores.values ↔
      ∃ name, transaction.deletedObjectStores.get name = some s :=
    (orders.deletedObjectStores.visit_perm _).mem_iff.trans mem_values_iff
  have hin (entry : Nat × Nat) : entry ∈ orders.deletedIndexes.visit transaction.deletedIndexes.values ↔
      ∃ name, transaction.deletedIndexes.get name = some entry :=
    (orders.deletedIndexes.visit_perm _).mem_iff.trans mem_values_iff
  obtain ⟨hst,hi,hn⟩ := h.objectStores_restored hold ha hdl
  rw [abort]
  simp only [foldl_restoreNames]
  generalize (orders.deletedObjectStores.visit transaction.deletedObjectStores.values).foldl
    registerObjectStore ((orders.addedObjectStores.visit
      transaction.versionChangeAddedObjectStores).foldl removeObjectStoreForVersionChangeAbort
        transaction.renamedBack) = backing at hst hi hn ⊢
  have hr (s : Nat) (hs : s ∈ old.objectStoresByIdentifier) : Restoring (old.objectStores s)
      (backing.objectStores s) fun i => (s, i) ∈ orders.deletedIndexes.visit transaction.deletedIndexes.values := by
    rw [hst]
    exact (h.indexes s hs).restoring (hrestorable s fun hnw => h.added s hnw hs) hin
  obtain ⟨hi',hn',hsn,hrs⟩ := foldl_restoreDeletedIndex
    { backing with databaseInfo := transaction.originalDatabaseInfo } hold (fun entry he hs => by
      obtain ⟨name,hnm⟩ := (hin entry).1 he
      exact (h.indexes entry.1 hs).deleted name entry.2 hnm) hr
  refine ⟨hi'.trans hi,hn'.trans hn,fun s hs => ⟨?_,?_⟩⟩
  · rw [hsn,← h.names s hs]
    exact congrArg (fun stores => (stores s).name) hst
  · exact Restoring.eq (hold.agrees s hs) (hrs s hs)

section

def insertionOrders : VisitingOrders Nat :=
  ⟨.insertion _,.insertion _,.insertion _,.insertion _,.insertion _,.insertion _⟩

def emptyDatabase : MemoryIDBBackingStore Nat := ⟨⟨.empty,0⟩,fun _ => .create 0,∅,fun _ => none⟩

/-- The object stores 1 and 2, called 10 and 20, each with an index 1 called 5, as a first transaction has made them. -/
def twoStores : MemoryIDBBackingStore Nat :=
  (run insertionOrders emptyDatabase [.createObjectStore 0 10, .createObjectStore 0 20, .createIndex 1 0 5 true,
    .createIndex 2 0 5 true]).toMemoryIDBBackingStore

private theorem oneIndex_agrees {store : StoreSchema Nat} (hm : store.indexMap.entries = [(1, 5)])
    (hi : store.indexesByIdentifier = {1}) (hn : store.indexesByName.entries = [(5, 1)]) (hf : store.indexNames 1 = 5) :
    store.Agrees := by
  constructor
  · intro n i
    simp only [Table.get,hn,hi,HashMap.get,Finset.mem_singleton]
    split_ifs with h
    · grind
    · grind
  · intro i n
    simp only [Table.get,hm,hi,HashMap.get,Finset.mem_singleton]
    split_ifs with h
    · grind
    · grind

private theorem twoStores_wellFormed : twoStores.WellFormed := by
  have hi : twoStores.objectStoresByIdentifier = {1, 2} := by decide
  have hn : twoStores.objectStoresByName = update (update (fun _ => none) 10 (some 1)) 20 (some 2) := rfl
  have hs : (twoStores.objectStores 1).name = 10 ∧ (twoStores.objectStores 2).name = 20 := by decide
  refine ⟨fun n s => ?_,fun s hs => ?_,by decide⟩
  · rw [hi,hn,Finset.mem_insert,Finset.mem_singleton,update_apply,update_apply]
    split_ifs <;> grind
  · rw [hi,Finset.mem_insert,Finset.mem_singleton] at hs
    obtain rfl | rfl := hs
    · exact oneIndex_agrees rfl rfl rfl rfl
    · exact oneIndex_agrees rfl rfl rfl rfl

def requests : List (SchemaRequest Nat) :=
  [.renameObjectStore 1 30, .createObjectStore 0 40, .createIndex 3 0 7 true, .deleteObjectStore 1]

private theorem requests_allowed : AllowedRun insertionOrders twoStores requests := by
  refine ⟨trivial,.inr (by decide),fun _ _ => by decide,fun _ _ => ?_,trivial⟩
  exact ⟨fun s hs => (nomatch hs),by decide,by decide⟩

private theorem requests_restorable : (run insertionOrders twoStores requests).Restorable := by
  intro s _ i _ n hn
  have he : (run insertionOrders twoStores requests).originalIndexNames.entries = [] := by decide
  rw [mem_def,get_eq_some_iff,he] at hn
  cases hn

/-- A new object store with an index, and one that is renamed and then deleted with its index. -/
theorem abort_restores_schema_requests :
    ((run insertionOrders twoStores requests).abort insertionOrders).objectStoresByIdentifier =
      twoStores.objectStoresByIdentifier :=
  (abort_restores_schema twoStores_wellFormed requests_allowed requests_restorable).1

/-- An index created on an object store that stays is not removed, and of two equally named indexes
deleted from different object stores only one comes back. -/
theorem abort_keeps_new_index : twoStores.WellFormed ∧
      (((run insertionOrders twoStores [.createIndex 1 0 6 true]).abort insertionOrders).objectStores
        1).indexesByIdentifier ≠ (twoStores.objectStores 1).indexesByIdentifier ∧
      (((run insertionOrders twoStores [.deleteIndex 1 1, .deleteIndex 2 1]).abort insertionOrders).objectStores
        2).indexesByIdentifier ≠ (twoStores.objectStores 2).indexesByIdentifier := by
  refine ⟨twoStores_wellFormed,by decide,by decide⟩

end

end VersionChange

end WebKit.IndexedDB
