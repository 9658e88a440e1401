import Mathlib.Data.List.AList
import Projgit.Daemon
import Projgit.SourceUrl

/-!
The control plane of `projgitd` (`server.rs`): the source the daemon is bound to, its mounts,
and the handlers of all nine requests. A handler runs under the lock of `active` or, on the
data plane, takes the backend out of it; requests are so answered one after the other. What
the handlers get from git, the file system and FUSE is the `Host` of the request, free to be
another one at the next. A call that panics under the lock leaves it poisoned and its client
without an answer; a panic elsewhere ends its thread and is left out.
-/
namespace ProjgitRegistry
open Utf8Bytes ProjgitStore ProjgitProtocol

/-- An error with its chain as `{:#}` prints it, or a panic. -/
inductive Failure where
  | error (text : String)
  | panic
  deriving DecidableEq

abbrev Attempt := Except Failure

def Failure.context (message : String) : Failure → Failure
  | .error text => .error (message ++ ": " ++ text)
  | .panic => .panic

def withContext {α : Type} (message : String) (x : Attempt α) : Attempt α :=
  x.mapError (Failure.context message)

structure CloneOptions where
  url : String
  destination : PathBuf
  filter : String
  noCheckout : Bool
  bare : Bool
  depth : Option UInt32

def CloneOptions.new (url : String) (destination : PathBuf) : CloneOptions :=
  ⟨url, destination, "blob:none", true, false, none⟩

def CloneOptions.withDepth (opts : CloneOptions) (n : UInt32) : Attempt CloneOptions :=
  if 0 < n then .ok { opts with depth := some n } else .error .panic

/-- What `DaemonConfig` sets, with the hasher and the `ObjectId::from_hex` of the libraries. -/
structure Setup where
  cacheDir : Option PathBuf
  cacheDepth : Option UInt32
  poolSize : Nat
  hash : List Char → UInt64
  fromHex : String → Except String ObjectId

/-- What one request finds. Stores are named by the directory they were opened at; the sinks
    of the overlay and of the session are not modelled, only whether they come to be. -/
structure Host where
  canonicalize : PathBuf → Except String PathBuf
  pathExists : PathBuf → Bool
  isDir : PathBuf → Bool
  varOs : String → Option PathBuf
  createDirAll : PathBuf → Attempt Unit
  partialClone : CloneOptions → Attempt Unit
  openStore : PathBuf → Attempt Unit
  gitVersionOk : Bool
  resolveCommit : PathBuf → String → Attempt ObjectId
  a1PlusOverlay : PathBuf → ObjectId → PathBuf → Attempt Unit
  applyA2 : PathBuf → String → ObjectId → Attempt Unit
  rootTree : PathBuf → String → Attempt ObjectId
  newProvider : PathBuf → String → Attempt Unit
  mountBackground : PathBuf → Bool → Attempt Unit
  spawnOk : Bool
  cacheStats : PathBuf → CacheStats
  uptimeSecs : UInt64
  fetchOne : ObjectId → Except String Unit
  prefetchHeaders : List ObjectId → List HeaderProbe
  fetchObjects : List ObjectId → List HeaderProbe

inductive ActiveBackend where
  | noop
  | gitCli (poolSize : Nat)
  deriving DecidableEq

structure MountEntry where
  refName : String
  projectionId : UInt64
  deriving DecidableEq

abbrev Mounts := AList fun _ : PathBuf => MountEntry

structure ActiveRepo where
  source : String
  gitDir : PathBuf
  backend : ActiveBackend
  mounts : Mounts

/-- `issued` records what `next_projection_id` has returned; the code does not keep it. -/
structure DaemonState where
  active : Option ActiveRepo
  poisoned : Bool
  nextId : UInt64
  issued : List UInt64
  shutdownRequested : Bool

def DaemonState.new : DaemonState := ⟨none, false, 1, [], false⟩

/-- `next_projection_id`: `fetch_add` wraps around. -/
def DaemonState.nextProjectionId (s : DaemonState) : UInt64 × DaemonState :=
  (s.nextId, { s with nextId := s.nextId + 1, issued := s.issued ++ [s.nextId] })

abbrev Answer := Option Response × DaemonState

def DaemonState.panicked (s : DaemonState) : Answer := (none, { s with poisoned := true })

def DaemonState.refuse (s : DaemonState) (code message : String) : Answer :=
  (some (.err code message), s)

/- Source attachment and overlay. -/
section
variable (setup : Setup) (host : Host)

def resolveCacheDir (explicit : Option PathBuf) : Attempt PathBuf :=
  match explicit with
  | some p => .ok p
  | none =>
    match host.varOs "XDG_CACHE_HOME" with
    | some xdg => .ok (join xdg (pathOf "projgit"))
    | none =>
      match host.varOs "HOME" with
      | none => .error (.error "HOME not set; pass --cache-dir explicitly")
      | some home => .ok (join (join home (pathOf ".cache")) (pathOf "projgit"))

def gitDirFor (cloneDest : PathBuf) : PathBuf :=
  let dotGit := join cloneDest (pathOf ".git")
  if host.isDir dotGit then dotGit else cloneDest

def openObjectStore (gitDir : PathBuf) : Attempt Unit :=
  withContext ("opening object store at " ++ displayPath gitDir) (host.openStore gitDir)

def openWithPoolSize (k : Nat) : Attempt ActiveBackend :=
  if host.gitVersionOk then .ok (.gitCli (max k 1))
  else .error (.error ("git CLI not available: `git --version` failed; " ++
    "install git or use a different fetcher"))

def cloneInto (source : String) (cacheDir dest : PathBuf) : Attempt Unit := do
  withContext ("creating cache dir " ++ displayPath cacheDir) (host.createDirAll cacheDir)
  let opts := CloneOptions.new source dest
  let opts ← match setup.cacheDepth with
    | some n => opts.withDepth n
    | none => pure opts
  withContext ("cloning " ++ source) (host.partialClone opts)

def attachSource (source : String) : Attempt ActiveRepo :=
  if looksLikeUrl source then do
    let cacheDir ← resolveCacheDir host setup.cacheDir
    let dest := join cacheDir (pathOf (cacheSubdirForUrl setup.hash source))
    -- A clone that is there already is used as it is.
    bif host.pathExists dest then .ok () else cloneInto setup host source cacheDir dest
    let gitDir := gitDirFor host dest
    openObjectStore host gitDir
    let fetcher ← withContext "opening GitCliFetcher (needs `git` on PATH)"
      (openWithPoolSize host setup.poolSize)
    return ⟨source, gitDir, fetcher, ∅⟩
  else do
    let path := pathOf source
    bif host.pathExists path then .ok ()
      else .error (.error ("source path " ++ displayPath path ++ " does not exist"))
    let gitDir := gitDirFor host path
    openObjectStore host gitDir
    return ⟨source, gitDir, .noop, ∅⟩

/-- Of `build_overlay`, for the projection of a ref. -/
def buildOverlay (noDotgit : Bool) (refName : String) (gitDir : PathBuf) : Attempt Unit :=
  if noDotgit then .ok ()
  else do
    let commit ← withContext "resolving projection commit for .git/ synthesis"
      (host.resolveCommit gitDir refName)
    let objectsDir := join gitDir (pathOf "objects")
    let objectsDir ← withContext ("canonicalizing " ++ displayPath objectsDir)
      ((host.canonicalize objectsDir).mapError Failure.error)
    withContext "building A1+ overlay" (host.a1PlusOverlay gitDir commit objectsDir)
    host.applyA2 gitDir refName commit

/- The handlers. -/

/-- The blanks are those of the source. -/
def mountMismatch (source bound : String) : String :=
  "daemon is bound to source `" ++ bound ++ "`; this Mount asked for `" ++ source ++
    "`.                  V1 is one source per daemon."

def attachMismatch (source bound : String) : String :=
  "daemon is bound to source `" ++ bound ++ "`; this Attach asked for `" ++ source ++
    "`. V1 is one source per daemon."

/-- The block at the head of `handle_mount` and of `handle_attach`: the first source that opens
    is bound, and another one is refused. Either the answer, or the bound repository. -/
def bindFirst (source : String) (mismatch : String → String) (s : DaemonState) :
    Except Answer (ActiveRepo × DaemonState) :=
  match s.active with
  | some repo =>
    if repo.source ≠ source then .error (s.refuse Codes.sourceMismatch (mismatch repo.source))
    else .ok (repo, s)
  | none =>
    match attachSource setup host source with
    | .error (.error text) => .error (s.refuse Codes.sourceOpenFailed text)
    | .error .panic => .error s.panicked
    | .ok repo =>
      let s := { s with active := some repo }
      if repo.source ≠ source then .error (s.refuse Codes.sourceMismatch (mismatch repo.source))
      else .ok (repo, s)

def startSession (gitDir : PathBuf) (refName : String) (mountpoint : PathBuf)
    (allowOther : Bool) : Attempt Unit := do
  host.newProvider gitDir refName
  host.mountBackground mountpoint allowOther

def DaemonState.register (s : DaemonState) (repo : ActiveRepo) (mountpoint : PathBuf)
    (entry : MountEntry) : DaemonState :=
  { s with active := some { repo with mounts := repo.mounts.insert mountpoint entry } }

def finishMount (refName : String) (mountpoint : PathBuf) (allowOther : Bool)
    (repo : ActiveRepo) (rootTree : Attempt ObjectId) (s : DaemonState) : Answer :=
  let (projectionId, s) := s.nextProjectionId
  match startSession host repo.gitDir refName mountpoint allowOther with
  | .error (.error text) => s.refuse Codes.mountFailed text
  | .error .panic => s.panicked
  | .ok () =>
    let s := s.register repo mountpoint ⟨refName, projectionId⟩
    -- The thread that warms the tree is only started for a root tree that resolved.
    if rootTree.isOk ∧ ¬ host.spawnOk then s.panicked else (some .ok, s)

def mountOn (refName : String) (mountpoint : PathBuf) (noDotgit allowOther : Bool)
    (repo : ActiveRepo) (s : DaemonState) : Answer :=
  if mountpoint ∈ repo.mounts then
    s.refuse Codes.mountpointBusy (displayPath mountpoint ++ " already mounted by this daemon")
  else match buildOverlay host noDotgit refName repo.gitDir with
    | .error (.error text) => s.refuse Codes.refResolveFailed text
    | .error .panic => s.panicked
    | .ok () =>
      match host.rootTree repo.gitDir refName with
      | .error .panic => s.panicked
      | rootTree => finishMount host refName mountpoint allowOther repo rootTree s

def canonicalizeFailed (mountpoint : PathBuf) (e : String) : String :=
  "canonicalize mountpoint " ++ displayPath mountpoint ++ ": " ++ e

def handleMount (source refName : String) (mountpoint : PathBuf) (noDotgit allowOther : Bool)
    (s : DaemonState) : Answer :=
  match host.canonicalize mountpoint with
  | .error e => s.refuse Codes.mountFailed (canonicalizeFailed mountpoint e)
  | .ok mountpoint =>
    if s.poisoned then s.refuse Codes.internal "daemon state mutex poisoned (prior panic)"
    else match bindFirst setup host source (mountMismatch source) s with
      | .error answer => answer
      | .ok (repo, s) => mountOn host refName mountpoint noDotgit allowOther repo s

def handleUmount (mountpoint : PathBuf) (s : DaemonState) : Answer :=
  match host.canonicalize mountpoint with
  | .error e => s.refuse Codes.noSuchMount (canonicalizeFailed mountpoint e)
  | .ok mountpoint =>
    if s.poisoned then s.refuse Codes.internal "daemon state mutex poisoned"
    else match s.active with
      | none => s.refuse Codes.noSuchMount "daemon has no active source yet"
      | some repo =>
        if mountpoint ∈ repo.mounts then
          (some .ok, { s with active := some { repo with mounts := repo.mounts.erase mountpoint } })
        else s.refuse Codes.noSuchMount ("no mount registered at " ++ displayPath mountpoint)

def handleAttach (source : String) (s : DaemonState) : Answer :=
  if s.poisoned then s.refuse Codes.internal "daemon state mutex poisoned"
  else match bindFirst setup host source (attachMismatch source) s with
    | .error answer => answer
    | .ok (repo, s) => (some (.attached repo.gitDir), s)

def parseOid (hex : String) : Except String ObjectId :=
  (setup.fromHex hex).mapError fun e => "invalid OID `" ++ hex ++ "`: " ++ e

def probeToWire : HeaderProbe → HeaderProbeWire
  | .present oid => .present oid.toHex
  | .presentWithHeader oid kind size =>
    .presentWithHeader oid.toHex (ProjgitDaemon.objectKindStr kind) (.ofNat size)
  | .headerOnly oid kind size =>
    .headerOnly oid.toHex (ProjgitDaemon.objectKindStr kind) (.ofNat size)
  | .error oid e => .error oid.toHex Codes.fetchFailed e.display

/-- The three handlers of the data plane: ids first, then the backend, cloned out of the lock,
    then the work. -/
def handleData {α : Type} (parsed : Except String α) (work : α → Response) (s : DaemonState) :
    Answer :=
  match parsed with
  | .error e => s.refuse Codes.badOid e
  | .ok ids =>
    if s.poisoned then s.refuse Codes.internal "daemon state mutex poisoned"
    else match s.active with
      | none => s.refuse Codes.notAttached "daemon has no active source yet; send Attach first"
      | some _ => (some (work ids), s)

def handleFetch (hex : String) : DaemonState → Answer :=
  handleData (parseOid setup hex) fun oid =>
    match host.fetchOne oid with
    | .ok () => .ok
    | .error e => .err Codes.fetchFailed e

def handlePrefetchHeaders (hexes : List String) : DaemonState → Answer :=
  handleData (hexes.mapM (parseOid setup)) fun oids =>
    .headerProbes ((host.prefetchHeaders oids).map probeToWire)

def handleFetchMany (hexes : List String) : DaemonState → Answer :=
  handleData (hexes.mapM (parseOid setup)) fun oids =>
    .headerProbes ((host.fetchObjects oids).map probeToWire)

def mountInfos (mounts : Mounts) : List MountInfo :=
  mounts.entries.map fun entry => ⟨entry.2.refName, entry.1, entry.2.projectionId⟩

/-- `DaemonState::status`. The map is read in any order; the sort by id follows. -/
def status (s : DaemonState) : StatusReport :=
  match s.active with
  | none => ⟨host.uptimeSecs, none, [], none⟩
  | some repo =>
    ⟨host.uptimeSecs, some repo.source,
      (mountInfos repo.mounts).mergeSort fun a b => a.projectionId ≤ b.projectionId,
      some (host.cacheStats repo.gitDir)⟩

/-- The lock is unwrapped: a poisoned one panics. -/
def handleStatus (s : DaemonState) : Answer :=
  if s.poisoned then s.panicked else (some (.status (status host s)), s)

def dispatch : Request → DaemonState → Answer
  | .ping, s => (some .pong, s)
  | .status, s => handleStatus host s
  | .shutdown, s => (some .ok, { s with shutdownRequested := true })
  | .mount source refName mountpoint noDotgit allowOther, s =>
    handleMount setup host source refName mountpoint noDotgit allowOther s
  | .umount mountpoint, s => handleUmount host mountpoint s
  | .attach source, s => handleAttach setup host source s
  | .fetch oid, s => handleFetch setup host oid s
  | .prefetchHeaders oids, s => handlePrefetchHeaders setup host oids s
  | .fetchMany oids, s => handleFetchMany setup host oids s

end
end ProjgitRegistry
