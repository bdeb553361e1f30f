import WebKit.Base.Table
import WebKit.IndexedDB.IndexValueStore

/-! The schema of a database in a version-change transaction: object stores and indexes, what is logged, and how an abort uses
the log. Objects are known by their identifiers, which are never used twice, so that a map from these to objects is a set. -/
namespace WebKit.IndexedDB

open Base Function

/-- The names of index objects are kept for indexes that are not registered too. -/
structure StoreSchema (Name : Type*) where
  name : Name
  indexMap : Table Nat Name
  maxIndexID : Nat
  indexesByIdentifier : Finset Nat
  indexesByName : Table Name Nat
  indexNames : Nat → Name

/-- What the database info has of an object store. -/
structure StoreInfo (Name : Type*) where
  name : Name
  indexMap : Table Nat Name

structure IDBDatabaseInfo (Name : Type*) where
  objectStoreMap : Table Nat (StoreInfo Name)
  maxObjectStoreID : Nat

/-- The database info, the object store objects and the registered object stores. -/
structure MemoryIDBBackingStore (Name : Type*) where
  databaseInfo : IDBDatabaseInfo Name
  objectStores : Nat → StoreSchema Name
  objectStoresByIdentifier : Finset Nat
  objectStoresByName : Name → Option Nat

/-- A version-change transaction with its backing store. -/
structure VersionChange (Name : Type*) extends MemoryIDBBackingStore Name where
  originalDatabaseInfo : IDBDatabaseInfo Name
  versionChangeAddedObjectStores : List Nat
  deletedObjectStores : Table Name Nat
  deletedIndexes : Table Name (Nat × Nat)
  originalObjectStoreNames : Table Nat Name
  originalIndexNames : Table (Nat × Nat) Name

structure VisitingOrders (Name : Type*) where
  indexes : IterationOrder Nat
  originalIndexNames : IterationOrder ((Nat × Nat) × Name)
  originalObjectStoreNames : IterationOrder (Nat × Name)
  addedObjectStores : IterationOrder Nat
  deletedObjectStores : IterationOrder Nat
  deletedIndexes : IterationOrder (Nat × Nat)

variable {Name : Type*} [DecidableEq Name]

namespace IDBDatabaseInfo

def infoForExistingObjectStore (info : IDBDatabaseInfo Name) (name : Name) : Option (Nat × StoreInfo Name) :=
  info.objectStoreMap.entries.find? fun entry => entry.2.name = name

def hasObjectStore (info : IDBDatabaseInfo Name) (name : Name) : Bool := (info.infoForExistingObjectStore name).isSome

def addExistingObjectStore (info : IDBDatabaseInfo Name) (identifier : Nat) (name : Name) : IDBDatabaseInfo Name where
  objectStoreMap := info.objectStoreMap.set identifier ⟨name,.empty⟩
  maxObjectStoreID := max identifier info.maxObjectStoreID

def deleteObjectStore (info : IDBDatabaseInfo Name) (name : Name) : IDBDatabaseInfo Name :=
  match info.infoForExistingObjectStore name with
  | none => info
  | some (identifier, _) => { info with objectStoreMap := info.objectStoreMap.remove identifier }

def renameObjectStore (info : IDBDatabaseInfo Name) (identifier : Nat) (newName : Name) : IDBDatabaseInfo Name :=
  match info.objectStoreMap.get identifier with
  | none => info
  | some storeInfo =>
    { info with objectStoreMap := info.objectStoreMap.set identifier { storeInfo with name := newName } }

end IDBDatabaseInfo

namespace StoreSchema

def create (name : Name) : StoreSchema Name := ⟨name,.empty,0,∅,.empty,fun _ => name⟩

def hasIndex (store : StoreSchema Name) (name : Name) : Bool :=
  (store.indexMap.entries.find? fun entry => entry.2 = name).isSome

def registerIndex (store : StoreSchema Name) (index : Nat) : StoreSchema Name :=
  { store with
    indexesByName := store.indexesByName.set (store.indexNames index) index
    indexesByIdentifier := insert index store.indexesByIdentifier }

def addExistingIndex (store : StoreSchema Name) (index : Nat) : StoreSchema Name :=
  { store with
    indexMap := store.indexMap.set index (store.indexNames index)
    maxIndexID := max index store.maxIndexID }

/-- Take an index out of both maps; the object is the one under its name. -/
def takeIndexByIdentifier (store : StoreSchema Name) (index : Nat) : StoreSchema Name × Option Nat :=
  if index ∉ store.indexesByIdentifier then (store, none)
  else
    ({ store with
       indexesByIdentifier := store.indexesByIdentifier.erase index
       indexesByName := store.indexesByName.remove (store.indexNames index) },
      store.indexesByName.get (store.indexNames index))

/-- Rename the info under the old name, the map's entry and the index itself. -/
def renameIndex (store : StoreSchema Name) (index : Nat) (newName : Name) : StoreSchema Name :=
  let oldName := store.indexNames index
  { store with
    indexMap :=
      match store.indexMap.entries.find? fun entry => entry.2 = oldName with
      | none => store.indexMap
      | some entry => store.indexMap.set entry.1 newName
    indexesByName :=
      match store.indexesByName.get oldName with
      | none => store.indexesByName
      | some taken => (store.indexesByName.remove oldName).set newName taken
    indexNames := update store.indexNames index newName }

/-- Put a deleted index back, unless there is one of its name. -/
def maybeRestoreDeletedIndex (store : StoreSchema Name) (index : Nat) : StoreSchema Name :=
  if store.hasIndex (store.indexNames index) then store else (store.addExistingIndex index).registerIndex index

end StoreSchema

namespace MemoryIDBBackingStore

def setObjectStore (backing : MemoryIDBBackingStore Name) (identifier : Nat) (store : StoreSchema Name) :
    MemoryIDBBackingStore Name :=
  { backing with objectStores := update backing.objectStores identifier store }

def registerObjectStore (backing : MemoryIDBBackingStore Name) (identifier : Nat) : MemoryIDBBackingStore Name :=
  { backing with
    objectStoresByName :=
      update backing.objectStoresByName (backing.objectStores identifier).name (some identifier)
    objectStoresByIdentifier := insert identifier backing.objectStoresByIdentifier }

/-- Take an object store out of the identifiers, and its name out of the names. -/
def unregisterObjectStore (backing : MemoryIDBBackingStore Name) (identifier : Nat) : MemoryIDBBackingStore Name :=
  { backing with
    objectStoresByName := update backing.objectStoresByName (backing.objectStores identifier).name none
    objectStoresByIdentifier := backing.objectStoresByIdentifier.erase identifier }

def removeObjectStoreForVersionChangeAbort (backing : MemoryIDBBackingStore Name) (identifier : Nat) :
    MemoryIDBBackingStore Name :=
  if identifier ∉ backing.objectStoresByIdentifier then backing else backing.unregisterObjectStore identifier

end MemoryIDBBackingStore

/-- The identifier of a new object store or index is behind the largest one so far; the client may have skipped some. A new
index says whether the records satisfy it. -/
inductive SchemaRequest (Name : Type*)
  | createObjectStore (skipped : Nat) (name : Name)
  | deleteObjectStore (objectStore : Nat)
  | renameObjectStore (objectStore : Nat) (newName : Name)
  | createIndex (objectStore : Nat) (skipped : Nat) (name : Name) (populates : Bool)
  | deleteIndex (objectStore index : Nat)
  | renameIndex (objectStore index : Nat) (newName : Name)

namespace VersionChange

def start (backing : MemoryIDBBackingStore Name) : VersionChange Name :=
  { backing with
    originalDatabaseInfo := backing.databaseInfo
    versionChangeAddedObjectStores := []
    deletedObjectStores := .empty
    deletedIndexes := .empty
    originalObjectStoreNames := .empty
    originalIndexNames := .empty }

def setObjectStore (transaction : VersionChange Name) (identifier : Nat) (store : StoreSchema Name) : VersionChange Name :=
  { transaction with toMemoryIDBBackingStore := transaction.toMemoryIDBBackingStore.setObjectStore identifier store }

def createObjectStore (transaction : VersionChange Name) (skipped : Nat) (name : Name) : VersionChange Name × IDBError :=
  if transaction.databaseInfo.hasObjectStore name then (transaction, some .constraintError)
  else
    let identifier := transaction.databaseInfo.maxObjectStoreID + 1 + skipped
    let backing := transaction.toMemoryIDBBackingStore.setObjectStore identifier (.create name)
    let backing := { backing with databaseInfo := backing.databaseInfo.addExistingObjectStore identifier name }
    ({ transaction with
       toMemoryIDBBackingStore := backing.registerObjectStore identifier
       versionChangeAddedObjectStores := HashSet.add transaction.versionChangeAddedObjectStores identifier }, none)

/-- Log a deleted index by its name, unless a deleted object store to be restored has its object store's name. -/
def indexDeleted (transaction : VersionChange Name) (objectStore index : Nat) : VersionChange Name :=
  let store := transaction.objectStores objectStore
  if (transaction.deletedObjectStores.get store.name).any (· ≠ objectStore) then transaction
  else { transaction with deletedIndexes := transaction.deletedIndexes.add (store.indexNames index) (objectStore, index) }

def deleteIndexOf (transaction : VersionChange Name) (objectStore index : Nat) : VersionChange Name × IDBError :=
  match (transaction.objectStores objectStore).takeIndexByIdentifier index with
  | (store, none) => (transaction.setObjectStore objectStore store, some .constraintError)
  | (store, some taken) =>
    let store := { store with indexMap := store.indexMap.remove index }
    ((transaction.setObjectStore objectStore store).indexDeleted objectStore taken, none)

def deleteAllIndexes (orders : VisitingOrders Name) (transaction : VersionChange Name) (objectStore : Nat) :
    VersionChange Name :=
  let identifiers := orders.indexes.visit (transaction.objectStores objectStore).indexesByName.values
  identifiers.foldl (fun transaction index => (transaction.deleteIndexOf objectStore index).1) transaction

def objectStoreDeleted (orders : VisitingOrders Name) (transaction : VersionChange Name) (objectStore : Nat) :
    VersionChange Name :=
  let transaction := transaction.deleteAllIndexes orders objectStore
  { transaction with
    deletedObjectStores :=
      transaction.deletedObjectStores.add (transaction.objectStores objectStore).name objectStore }

def deleteObjectStore (orders : VisitingOrders Name) (transaction : VersionChange Name) (objectStore : Nat) :
    VersionChange Name × IDBError :=
  if (transaction.databaseInfo.objectStoreMap.get objectStore).isNone then (transaction, some .constraintError)
  else if objectStore ∉ transaction.objectStoresByIdentifier then (transaction, some .constraintError)
  else
    let backing := transaction.toMemoryIDBBackingStore.unregisterObjectStore objectStore
    let name := (transaction.objectStores objectStore).name
    let backing := { backing with databaseInfo := backing.databaseInfo.deleteObjectStore name }
    ({ transaction with toMemoryIDBBackingStore := backing }.objectStoreDeleted orders objectStore, none)

/-- The map of names keeps the old name. -/
def renameObjectStore (transaction : VersionChange Name) (objectStore : Nat) (newName : Name) :
    VersionChange Name × IDBError :=
  if (transaction.databaseInfo.objectStoreMap.get objectStore).isNone then (transaction, some .constraintError)
  else if objectStore ∉ transaction.objectStoresByIdentifier then (transaction, some .constraintError)
  else
    let store := transaction.objectStores objectStore
    let backing := transaction.toMemoryIDBBackingStore.setObjectStore objectStore { store with name := newName }
    let backing := { backing with databaseInfo := backing.databaseInfo.renameObjectStore objectStore newName }
    ({ transaction with
       toMemoryIDBBackingStore := backing
       originalObjectStoreNames := transaction.originalObjectStoreNames.add objectStore store.name }, none)

def createIndex (transaction : VersionChange Name) (objectStore skipped : Nat) (name : Name) (populates : Bool) :
    VersionChange Name × IDBError :=
  if objectStore ∉ transaction.objectStoresByIdentifier then (transaction, some .constraintError)
  else if !populates then (transaction, some .constraintError)
  else
    let store := transaction.objectStores objectStore
    let index := store.maxIndexID + 1 + skipped
    let store := { store with indexNames := update store.indexNames index name }
    (transaction.setObjectStore objectStore ((store.addExistingIndex index).registerIndex index), none)

def deleteIndex (transaction : VersionChange Name) (objectStore index : Nat) : VersionChange Name × IDBError :=
  if objectStore ∉ transaction.objectStoresByIdentifier then (transaction, some .constraintError)
  else transaction.deleteIndexOf objectStore index

def renameIndex (transaction : VersionChange Name) (objectStore index : Nat) (newName : Name) :
    VersionChange Name × IDBError :=
  match transaction.databaseInfo.objectStoreMap.get objectStore with
  | none => (transaction, some .constraintError)
  | some objectStoreInfo =>
    let store := transaction.objectStores objectStore
    if (objectStoreInfo.indexMap.get index).isNone then (transaction, some .constraintError)
    else if objectStore ∉ transaction.objectStoresByIdentifier then (transaction, some .constraintError)
    else if index ∉ store.indexesByIdentifier then (transaction, some .constraintError)
    else
      let backing := transaction.toMemoryIDBBackingStore.setObjectStore objectStore (store.renameIndex index newName)
      let info := { objectStoreInfo with indexMap := objectStoreInfo.indexMap.set index newName }
      let databaseInfo :=
        { backing.databaseInfo with objectStoreMap := backing.databaseInfo.objectStoreMap.set objectStore info }
      ({ transaction with
         toMemoryIDBBackingStore := { backing with databaseInfo := databaseInfo }
         originalIndexNames := transaction.originalIndexNames.add (objectStore, index) (store.indexNames index) }, none)

def perform (orders : VisitingOrders Name) (transaction : VersionChange Name) : SchemaRequest Name → VersionChange Name
  | .createObjectStore skipped name => (transaction.createObjectStore skipped name).1
  | .deleteObjectStore objectStore => (transaction.deleteObjectStore orders objectStore).1
  | .renameObjectStore objectStore newName => (transaction.renameObjectStore objectStore newName).1
  | .createIndex objectStore skipped name populates => (transaction.createIndex objectStore skipped name populates).1
  | .deleteIndex objectStore index => (transaction.deleteIndex objectStore index).1
  | .renameIndex objectStore index newName => (transaction.renameIndex objectStore index newName).1

def run (orders : VisitingOrders Name) (backing : MemoryIDBBackingStore Name) (requests : List (SchemaRequest Name)) :
    VersionChange Name :=
  requests.foldl (perform orders) (start backing)

end VersionChange

namespace MemoryIDBBackingStore

/-- Give an index object a name, and nothing else. -/
def restoreIndexName (backing : MemoryIDBBackingStore Name) (entry : (Nat × Nat) × Name) : MemoryIDBBackingStore Name :=
  let store := backing.objectStores entry.1.1
  backing.setObjectStore entry.1.1 { store with indexNames := update store.indexNames entry.1.2 entry.2 }

/-- Give an object store object a name, and nothing else. -/
def restoreObjectStoreName (backing : MemoryIDBBackingStore Name) (entry : Nat × Name) : MemoryIDBBackingStore Name :=
  backing.setObjectStore entry.1 { backing.objectStores entry.1 with name := entry.2 }

def restoreDeletedIndex (backing : MemoryIDBBackingStore Name) (index : Nat × Nat) : MemoryIDBBackingStore Name :=
  backing.setObjectStore index.1 ((backing.objectStores index.1).maybeRestoreDeletedIndex index.2)

end MemoryIDBBackingStore

/-- Undo the changes in a fixed order of kinds, without the indexes that were created. -/
def VersionChange.abort (orders : VisitingOrders Name) (transaction : VersionChange Name) : MemoryIDBBackingStore Name :=
  let indexNames := orders.originalIndexNames.visit transaction.originalIndexNames.entries
  let objectStoreNames := orders.originalObjectStoreNames.visit transaction.originalObjectStoreNames.entries
  let added := orders.addedObjectStores.visit transaction.versionChangeAddedObjectStores
  let deletedObjectStores := orders.deletedObjectStores.visit transaction.deletedObjectStores.values
  let deletedIndexes := orders.deletedIndexes.visit transaction.deletedIndexes.values
  let backing := indexNames.foldl MemoryIDBBackingStore.restoreIndexName transaction.toMemoryIDBBackingStore
  let backing := objectStoreNames.foldl MemoryIDBBackingStore.restoreObjectStoreName backing
  let backing := added.foldl MemoryIDBBackingStore.removeObjectStoreForVersionChangeAbort backing
  let backing := deletedObjectStores.foldl MemoryIDBBackingStore.registerObjectStore backing
  let backing := { backing with databaseInfo := transaction.originalDatabaseInfo }
  deletedIndexes.foldl MemoryIDBBackingStore.restoreDeletedIndex backing

end WebKit.IndexedDB
