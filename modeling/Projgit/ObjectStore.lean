import Mathlib.Data.List.Basic
import Projgit.Caches

/-!
`ObjectStore` (`object_store.rs`): the read-only wrapper around gix with its three
caches. Methods are written once over an arbitrary monad in which single accesses to
the shared store can be made, so the same text runs as one sequential call and as one
thread among others. gix itself is the record `Gix`, over an opaque world that holds
the object database, the refs and whatever else the process cannot see.
-/
namespace ProjgitStore
open Utf8Bytes ProjgitCaches

structure ObjectId where
  bytes : Bytes
  width : bytes.length = 20
  deriving DecidableEq

def hexDigit (n : Nat) : Char :=
  if n < 10 then Char.ofNat (48 + n) else Char.ofNat (87 + n)

def ObjectId.toHex (oid : ObjectId) : String :=
  String.ofList (oid.bytes.flatMap fun b => [hexDigit (b.toNat / 16), hexDigit (b.toNat % 16)])

inductive ObjectKind where
  | blob | tree | commit | tag
  deriving DecidableEq, Repr

def ObjectKind.debug : ObjectKind → String
  | .blob => "Blob"
  | .tree => "Tree"
  | .commit => "Commit"
  | .tag => "Tag"

structure RawTreeEntry where
  name : Bytes
  modeRaw : UInt16
  oid : ObjectId
  deriving DecidableEq

inductive ObjectStoreError where
  | missingObject : ObjectId → ObjectStoreError
  | open_ : String → String → ObjectStoreError
  | unexpectedKind : ObjectId → ObjectKind → ObjectKind → ObjectStoreError
  | backend : String → ObjectStoreError
  deriving DecidableEq

def ObjectStoreError.display : ObjectStoreError → String
  | .missingObject oid => "object " ++ oid.toHex ++ " is not present in the store"
  | .open_ path source => "failed to open git directory at " ++ path ++ ": " ++ source
  | .unexpectedKind oid expected actual =>
    "object " ++ oid.toHex ++ " has kind " ++ actual.debug ++ ", expected " ++ expected.debug
  | .backend message => "gix backend error: " ++ message

/-- A decoded object as gix hands it out. -/
structure Object where
  kind : ObjectKind
  data : Bytes
  deriving DecidableEq

def Object.header (o : Object) : ObjectKind × Nat := (o.kind, o.data.length)

/-- The parts of gix the store calls. Errors are gix's own texts. `findReference` is
    `find_reference` followed by `peel_to_id_in_place`. -/
structure Gix (ω : Type) where
  tryFindObject : ω → ObjectId → Except String (Option Object)
  tryFindHeader : ω → ObjectId → Except String (Option (ObjectKind × Nat))
  treeIter : Bytes → List (Except String RawTreeEntry)
  commitTreeId : Bytes → Except String ObjectId
  committerSeconds : Bytes → Except String Int
  findReference : ω → Bytes → Except String ObjectId

structure Store (ω : Type) where
  world : ω
  treeCache : Lru ObjectId (List RawTreeEntry)
  blobCache : BlobCache ObjectId
  headerCache : Lru ObjectId (ObjectKind × Nat)

def Store.withCapacities (trees blobBytes perEntry headers : Nat) (w : ω) : Store ω :=
  ⟨w, .withCapacity trees, .new blobBytes perEntry, .withCapacity headers⟩

def Store.open (w : ω) : Store ω :=
  .withCapacities 256 (16 * 1024 * 1024) (64 * 1024) 4096 w

def Store.getTree (oid : ObjectId) (s : Store ω) : Option (List RawTreeEntry) × Store ω :=
  ((s.treeCache.get oid).1, { s with treeCache := (s.treeCache.get oid).2 })

def Store.putTree (oid : ObjectId) (es : List RawTreeEntry) (s : Store ω) : Unit × Store ω :=
  ((), { s with treeCache := s.treeCache.put oid es })

def Store.missTree (s : Store ω) : Unit × Store ω :=
  ((), { s with treeCache := s.treeCache.recordMiss })

def Store.getBlob (oid : ObjectId) (s : Store ω) : Option Bytes × Store ω :=
  ((s.blobCache.get oid).1, { s with blobCache := (s.blobCache.get oid).2 })

def Store.putBlob (oid : ObjectId) (bytes : Bytes) (s : Store ω) : Unit × Store ω :=
  ((), { s with blobCache := s.blobCache.put oid bytes })

def Store.missBlob (s : Store ω) : Unit × Store ω :=
  ((), { s with blobCache := s.blobCache.recordMiss })

def Store.getHeader (oid : ObjectId) (s : Store ω) : Option (ObjectKind × Nat) × Store ω :=
  ((s.headerCache.get oid).1, { s with headerCache := (s.headerCache.get oid).2 })

def Store.putHeader (oid : ObjectId) (h : ObjectKind × Nat) (s : Store ω) : Unit × Store ω :=
  ((), { s with headerCache := s.headerCache.put oid h })

def Store.missHeader (s : Store ω) : Unit × Store ω :=
  ((), { s with headerCache := s.headerCache.recordMiss })

universe v
variable {ω : Type} {m : Type → Type v} [Monad m] [MonadLiftT (StateM (Store ω)) m]

/-- One lock section of a cache, or one look at the disk. -/
def Gix.access (_ : Gix ω) {α : Type} (f : Store ω → α × Store ω) : m α :=
  liftM (modifyGet f : StateM (Store ω) α)

def Gix.ask (G : Gix ω) {α : Type} (question : ω → Except String α) :
    ExceptT ObjectStoreError m α :=
  ExceptT.mk (G.access fun s => ((question s.world).mapError .backend, s))

namespace ObjectStore
variable (G : Gix ω)

def contains (oid : ObjectId) : m Bool :=
  G.access fun s => ((match G.tryFindObject s.world oid with
    | .ok found => found.isSome
    | .error _ => false), s)

def header (oid : ObjectId) : ExceptT ObjectStoreError m (ObjectKind × Nat) := do
  match ← G.access (Store.getHeader oid) with
  | some h => return h
  | none =>
    G.access Store.missHeader
    match ← G.ask (G.tryFindHeader · oid) with
    | none => throw (.missingObject oid)
    | some h =>
      G.access (Store.putHeader oid h)
      return h

def putHeaderCache (oid : ObjectId) (kind : ObjectKind) (size : Nat) : m Unit :=
  G.access (Store.putHeader oid (kind, size))

/-- The object under `oid`, which must be of the kind the caller wants. `read_blob`,
    `read_tree`, `commit_time` and `commit_tree` all begin so. -/
def findKind (expected : ObjectKind) (oid : ObjectId) :
    ExceptT ObjectStoreError m Object := do
  match ← G.ask (G.tryFindObject · oid) with
  | none => throw (.missingObject oid)
  | some obj =>
    if obj.kind = expected then return obj
    else throw (.unexpectedKind oid expected obj.kind)

def readBlob (oid : ObjectId) : ExceptT ObjectStoreError m Bytes := do
  match ← G.access (Store.getBlob oid) with
  | some cached => return cached
  | none =>
    G.access Store.missBlob
    let obj ← findKind G .blob oid
    G.access (Store.putBlob oid obj.data)
    return obj.data

def parseTree (data : Bytes) : Except ObjectStoreError (List RawTreeEntry) :=
  (G.treeIter data).mapM fun entry => entry.mapError .backend

def readTree (oid : ObjectId) : ExceptT ObjectStoreError m (List RawTreeEntry) := do
  match ← G.access (Store.getTree oid) with
  | some cached => return cached
  | none =>
    G.access Store.missTree
    let obj ← findKind G .tree oid
    let out ← ExceptT.mk (pure (parseTree G obj.data))
    G.access (Store.putTree oid out)
    return out

/-- Seconds around the epoch; both branches of the source give the signed value. -/
def commitTime (oid : ObjectId) : ExceptT ObjectStoreError m Int := do
  let obj ← findKind G .commit oid
  ExceptT.mk (pure ((G.committerSeconds obj.data).mapError .backend))

def commitTree (oid : ObjectId) : ExceptT ObjectStoreError m ObjectId := do
  let obj ← findKind G .commit oid
  ExceptT.mk (pure ((G.commitTreeId obj.data).mapError .backend))

def resolveRef (refname : Bytes) : ExceptT ObjectStoreError m ObjectId :=
  G.ask (G.findReference · refname)

end ObjectStore

/-- What a borrower of the store can do with it (`&ObjectStore`). -/
structure StoreHandle (m : Type → Type v) where
  contains : ObjectId → m Bool
  header : ObjectId → ExceptT ObjectStoreError m (ObjectKind × Nat)
  putHeaderCache : ObjectId → ObjectKind → Nat → m Unit
  readBlob : ObjectId → ExceptT ObjectStoreError m Bytes
  readTree : ObjectId → ExceptT ObjectStoreError m (List RawTreeEntry)
  commitTime : ObjectId → ExceptT ObjectStoreError m Int
  commitTree : ObjectId → ExceptT ObjectStoreError m ObjectId
  resolveRef : Bytes → ExceptT ObjectStoreError m ObjectId

def Gix.handle (G : Gix ω) : StoreHandle m where
  contains := ObjectStore.contains G
  header := ObjectStore.header G
  putHeaderCache := ObjectStore.putHeaderCache G
  readBlob := ObjectStore.readBlob G
  readTree := ObjectStore.readTree G
  commitTime := ObjectStore.commitTime G
  commitTree := ObjectStore.commitTree G
  resolveRef := ObjectStore.resolveRef G

end ProjgitStore
