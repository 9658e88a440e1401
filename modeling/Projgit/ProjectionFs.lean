import Projgit.Fetcher
import Projgit.FsProvider
import Projgit.Projection

/-!
`ProjectionFsProvider` (`projection_fs.rs`) with its prefetch worker (`prefetch.rs`).
What never changes after `new` is `Mount`; the state behind the locks is `FsState`. Each
call runs to its end before the next; the worker takes its tasks between calls.
-/
namespace ProjgitFs
open Utf8Bytes ProjgitStore ProjgitProjection SlashPath Stateful

inductive AttrSnapshot where
  | root
  | treeFile : ObjectId → Nat → UInt16 → AttrSnapshot
  | treeDir : ObjectId → Bytes → AttrSnapshot
  | treeSymlink : ObjectId → Nat → AttrSnapshot
  | gitlink
  | syntheticFile : Bytes → UInt16 → AttrSnapshot
  | syntheticDir : List (Bytes × SyntheticEntry) → Bytes → AttrSnapshot
  | syntheticSymlink : Bytes → AttrSnapshot

inductive PrefetchTask where
  | headers : List ObjectId → PrefetchTask
  | blobs : List ObjectId → PrefetchTask

structure FsState (ω : Type) where
  allocator : InodeAllocator
  attrs : AList (fun _ : UInt64 => AttrSnapshot)
  channel : List PrefetchTask
  store : Store ω

/-- `blobPrefetch` and `blobCap` are the two environment variables of `prefetch.rs`. -/
structure Mount (ω : Type) where
  hasher : Bytes → UInt64
  gix : Gix ω
  fetcher : Fetcher (StateM (Store ω))
  projection : Projection
  overlay : RootOverlay
  commitTime : Int
  blobPrefetch : Bool
  blobCap : Nat

abbrev FsM (ω : Type) := ExceptT FsError (StateM (FsState ω))

def projectionToFs : ProjectionError → FsError
  | .notFound _ _ => .notFound
  | .notADirectory _ _ => .notADirectory
  | .invalidPath _ _ => .notFound
  | .store e => .io e.display

def hydrateToFs (e : HydrateError) : FsError := .io e.display

def sliceBlob (bytes : Bytes) (offset size : Nat) : Bytes :=
  let start := min offset bytes.length
  let stop := min (start + size) bytes.length
  (bytes.take stop).drop start

def harvestPrefetchOid : ResolvedEntry → Option ObjectId
  | .tree entry =>
    match entry.mode with
    | .regularFile | .executableFile | .symlink => some entry.oid
    | .directory | .gitlink => none
  | .synthetic _ _ => none

def joinPath (parentPath name : Bytes) : Bytes :=
  if parentPath = [] then fromUtf8Lossy name
  else fromUtf8Lossy parentPath ++ slash :: fromUtf8Lossy name

def fileTypeOfMode : EntryMode → FileType
  | .regularFile | .executableFile => .regularFile
  | .directory | .gitlink => .directory
  | .symlink => .symlink

def fileTypeOfSynthetic : SyntheticEntry → FileType
  | .file _ _ => .regularFile
  | .directory _ => .directory
  | .symlink _ => .symlink

variable {ω : Type}

def onStoreOr {ε α : Type} (translate : ε → FsError) (x : ExceptT ε (StateM (Store ω)) α) :
    FsM ω α :=
  ExceptT.adapt translate
    (ExceptT.mk (zoom FsState.store (fun s store => { s with store := store }) x.run))

def allocate {α : Type} (f : InodeAllocator → α × InodeAllocator) : StateM (FsState ω) α :=
  modifyGet fun s => ((f s.allocator).1, { s with allocator := (f s.allocator).2 })

/-- `attrs.entry(inode).or_insert(snap)`. -/
def publish (inode : UInt64) (snap : AttrSnapshot) : StateM (FsState ω) Unit :=
  modify fun s => match s.attrs.lookup inode with
    | some _ => s
    | none => { s with attrs := s.attrs.insert inode snap }

def cachedSnapshot (inode : UInt64) : FsM ω AttrSnapshot := do
  match (← get).attrs.lookup inode with
  | some snap => return snap
  | none => throw .notFound

def channelCapacity : Nat := 256

/-- `try_send`: a full channel drops the task. -/
def post (task : PrefetchTask) : StateM (FsState ω) Unit :=
  modify fun s =>
    if s.channel.length < channelCapacity then { s with channel := s.channel ++ [task] } else s

def parentPath (parent : UInt64) : FsM ω Bytes := do
  if parent = rootInode then return []
  match (← get).attrs.lookup parent with
  | some (.treeDir _ path) | some (.syntheticDir _ path) => return path
  | some .gitlink => throw .notFound
  | some _ => throw .notADirectory
  | none => throw .notFound

def AttrSnapshot.stat : AttrSnapshot → FileType × Nat × UInt16
  | .root => (.directory, 0, 0o755)
  | .treeFile _ size mode => (.regularFile, size, mode)
  | .treeDir _ _ => (.directory, 0, 0o755)
  | .treeSymlink _ size => (.symlink, size, 0o777)
  | .gitlink => (.directory, 0, 0o755)
  | .syntheticFile content mode => (.regularFile, content.length, mode)
  | .syntheticDir _ _ => (.directory, 0, 0o755)
  | .syntheticSymlink target => (.symlink, target.length, 0o777)

namespace Mount
variable (M : Mount ω)

def hydrating : HydratingObjectStore (StateM (Store ω)) := ⟨M.gix.handle, M.fetcher⟩

/-- `store.store()`: the bare store, which never fetches. -/
def bare : StoreHandle (StateM (Store ω)) := M.gix.handle

def postPrefetch (oids : List ObjectId) : StateM (FsState ω) Unit := do
  if oids.isEmpty then return ()
  post (.headers oids)
  if M.blobPrefetch then post (.blobs oids)

def dirEntryFor (resolved : ResolvedEntry) (fullPath : Bytes) :
    StateM (FsState ω) (UInt64 × FileType) := do
  match resolved with
  | .tree entry =>
    return (← allocate (·.forTreeEntry M.hasher entry.oid fullPath), fileTypeOfMode entry.mode)
  | .synthetic _ entry =>
    return (← allocate (·.forSynthetic M.hasher fullPath), fileTypeOfSynthetic entry)

def snapshotForTree (entry : TreeEntry) (fullPath : Bytes) :
    FsM ω (UInt64 × AttrSnapshot × FileType × Nat × UInt16) := do
  let inode ← (allocate (·.forTreeEntry M.hasher entry.oid fullPath) : StateM (FsState ω) UInt64)
  match entry.mode with
  | .regularFile | .executableFile =>
    let mode : UInt16 := if entry.mode = .executableFile then 0o755 else 0o644
    let (_, size) ← onStoreOr hydrateToFs (M.hydrating.header entry.oid)
    return (inode, .treeFile entry.oid size mode, .regularFile, size, mode)
  | .directory => return (inode, .treeDir entry.oid fullPath, .directory, 0, 0o755)
  | .symlink =>
    let (_, size) ← onStoreOr hydrateToFs (M.hydrating.header entry.oid)
    return (inode, .treeSymlink entry.oid size, .symlink, size, 0o777)
  | .gitlink => return (inode, .gitlink, .directory, 0, 0o755)

def snapshotForSynthetic (entry : SyntheticEntry) (fullPath : Bytes) :
    StateM (FsState ω) (UInt64 × AttrSnapshot × FileType × Nat × UInt16) := do
  let inode ← allocate (·.forSynthetic M.hasher fullPath)
  match entry with
  | .file content modeRaw =>
    let mode : UInt16 := if modeRaw = 0o100755 then 0o755 else 0o644
    return (inode, .syntheticFile content mode, .regularFile, content.length, mode)
  | .directory children => return (inode, .syntheticDir children fullPath, .directory, 0, 0o755)
  | .symlink target =>
    return (inode, .syntheticSymlink target, .symlink, target.length, 0o777)

def snapshotFor (resolved : ResolvedEntry) (fullPath : Bytes) :
    FsM ω (UInt64 × AttrSnapshot × FileType × Nat × UInt16) :=
  match resolved with
  | .tree entry => M.snapshotForTree entry fullPath
  | .synthetic _ entry => liftM (M.snapshotForSynthetic entry fullPath)

def attr (inode : UInt64) (kind : FileType) (size : Nat) (mode : UInt16) : Attr :=
  let a := match kind with
    | .regularFile => Attr.regularFile inode size mode
    | .directory => Attr.directory inode
    | .symlink => Attr.symlink inode size
  { a with mtime := M.commitTime }

def lookup (parent : UInt64) (name : Bytes) : FsM ω Attr := do
  let parentPath ← parentPath parent
  let full := joinPath parentPath name
  let resolved ← onStoreOr projectionToFs (M.projection.lookup M.bare M.overlay full)
  let (inode, snap, kind, size, mode) ← M.snapshotFor resolved full
  (publish inode snap : StateM (FsState ω) Unit)
  return M.attr inode kind size mode

def getattr (inode : UInt64) : FsM ω Attr := do
  if inode = rootInode then return M.attr rootInode .directory 0 0o755
  let snap ← cachedSnapshot inode
  let (kind, size, mode) := snap.stat
  return M.attr inode kind size mode

/-- The loop of `readdir`, over the children of the directory at `path`. -/
def listChildren (path : Bytes) : List (Bytes × ResolvedEntry) → StateM (FsState ω) (List DirEntry)
  | [] => return []
  | (name, resolved) :: rest => do
    let (inode, kind) ← M.dirEntryFor resolved (joinPath path name)
    let more ← listChildren path rest
    return ⟨inode, name, kind⟩ :: more

def readdir (inode : UInt64) (offset : Nat) : FsM ω (List DirEntry) := do
  if 0 < offset then return []
  if inode = rootInode then
    let pairs ← onStoreOr projectionToFs (M.projection.readRoot M.bare M.overlay)
    let out ← liftM (M.listChildren [] pairs)
    M.postPrefetch (pairs.filterMap fun named => harvestPrefetchOid named.2)
    return out
  match ← cachedSnapshot inode with
  | .treeDir tree path =>
    let raw ← onStoreOr hydrateToFs (M.hydrating.readTree tree)
    let pairs := raw.map fun e => (e.name, ResolvedEntry.tree (.ofRaw e))
    let out ← liftM (M.listChildren path pairs)
    M.postPrefetch (pairs.filterMap fun named => harvestPrefetchOid named.2)
    return out
  | .syntheticDir children path =>
    liftM (M.listChildren path (children.map fun named => (named.1, .synthetic named.1 named.2)))
  | .gitlink => return []
  | .root => return []
  | _ => throw .notADirectory

def read (inode : UInt64) (offset size : Nat) : FsM ω Bytes := do
  match ← cachedSnapshot inode with
  | .treeFile oid _ _ =>
    let bytes ← onStoreOr hydrateToFs (M.hydrating.readBlob oid)
    return sliceBlob bytes offset size
  | .syntheticFile content _ => return sliceBlob content offset size
  | _ => throw .notAFile

def readlink (inode : UInt64) : FsM ω Bytes := do
  match ← cachedSnapshot inode with
  | .treeSymlink oid _ => onStoreOr hydrateToFs (M.hydrating.readBlob oid)
  | .syntheticSymlink target => return target
  | _ => throw .notASymlink

def provider : FsProvider (StateM (FsState ω)) :=
  ⟨M.lookup, M.getattr, M.readdir, M.read, M.readlink⟩

end Mount

/-- The arguments of `ProjectionFsProvider::new`, with the process's hasher and
    environment. -/
structure MountSpec (ω : Type) where
  hasher : Bytes → UInt64
  gix : Gix ω
  fetcher : Fetcher (StateM (Store ω))
  projection : Projection
  overlay : RootOverlay
  projectionId : UInt64
  blobPrefetch : Bool
  blobCap : Nat

def MountSpec.start (spec : MountSpec ω) (store : Store ω) : FsState ω :=
  ⟨.new spec.projectionId, AList.insert rootInode .root ∅, [], store⟩

def MountSpec.mount (spec : MountSpec ω) (commitTime : Int) : Mount ω :=
  ⟨spec.hasher, spec.gix, spec.fetcher, spec.projection, spec.overlay, commitTime,
    spec.blobPrefetch, spec.blobCap⟩

/-- `ProjectionFsProvider::new`: the commit is resolved once, for its time. -/
def MountSpec.new (spec : MountSpec ω) :
    ExceptT ProjectionError (StateM (Store ω)) (Mount ω × FsState ω) := do
  let oid ← spec.projection.resolveCommit spec.gix.handle
  let time ← ExceptT.adapt .store (spec.gix.handle.commitTime oid)
  return (spec.mount time, spec.start (← get))

namespace Worker
variable (M : Mount ω)

def maxBatch : Nat := 64

/-- `oids.chunks(MAX_BATCH)`; the fuel is the number of elements left. -/
def chunks : Nat → List ObjectId → List (List ObjectId)
  | 0, _ => []
  | fuel + 1, oids =>
    if oids.isEmpty then [] else oids.take maxBatch :: chunks fuel (oids.drop maxBatch)

def blobsUnderCap : List ObjectId → StateM (Store ω) (List ObjectId)
  | [] => return []
  | oid :: rest => do
    let header ← (M.bare.header oid).run
    let keep := match header with
      | .ok (.blob, size) => decide (size ≤ M.blobCap)
      | _ => false
    let more ← blobsUnderCap rest
    return if keep then oid :: more else more

def warmHeaders : List (List ObjectId) → StateM (Store ω) Unit
  | [] => return ()
  | chunk :: rest => do
    let _ ← M.hydrating.prefetchHeaders chunk
    warmHeaders rest

def warmBlobs : List (List ObjectId) → StateM (Store ω) Unit
  | [] => return ()
  | chunk :: rest => do
    let keep ← blobsUnderCap M chunk
    if keep.isEmpty then warmBlobs rest
    else
      let _ ← M.hydrating.fetchObjects keep
      warmBlobs rest

/-- One round of `worker_loop`: take the oldest task and do it. -/
def work : StateM (FsState ω) Unit := do
  match (← get).channel with
  | [] => return ()
  | task :: rest =>
    modify fun s => { s with channel := rest }
    zoom FsState.store (fun s store => { s with store := store }) <|
      match task with
      | .headers oids => warmHeaders M (chunks oids.length oids)
      | .blobs oids => warmBlobs M (chunks oids.length oids)

end Worker
end ProjgitFs
