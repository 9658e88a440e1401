import Projgit.GitCli
import Projgit.WarmTree

/-!
The data plane of `projgitd`: the handlers of `Fetch`, `PrefetchHeaders` and `FetchMany`
(`server.rs`) and the sidecar's `DaemonFetcher` (`daemon/src/fetcher.rs`), which meet in
connections of one request and one response. Requests of the control plane are left out,
but for the tree walk that a mount starts and the reads of mounts inside the daemon.
Sidecars have caches of their own and share the daemon's world.
-/
namespace ProjgitDaemon
open Utf8Bytes ProjgitStore ProjgitGitCli Interleave

inductive Request where
  | fetch (oid : String)
  | prefetchHeaders (oids : List String)
  | fetchMany (oids : List String)
  deriving DecidableEq

inductive HeaderProbeWire where
  | present (oid : String)
  | presentWithHeader (oid objectKind : String) (size : Nat)
  | headerOnly (oid objectKind : String) (size : Nat)
  | error (oid code message : String)
  deriving DecidableEq

inductive Response where
  | ok
  | headerProbes (probes : List HeaderProbeWire)
  | err (code message : String)
  deriving DecidableEq

namespace Codes
def sourceMismatch := "source_mismatch"
def internal := "internal"
def notAttached := "not_attached"
def badOid := "bad_oid"
def fetchFailed := "fetch_failed"
end Codes

/-- `ObjectId::from_hex` of gix with the text of its error, and `{:?}` of a response. -/
structure Wire where
  fromHex : String → Except String ObjectId
  debug : Response → String

/-- A connection: the request has been sent, taken up by a handler, answered; or the
    transport failed, with the text `rpc` makes of it. -/
inductive Status where
  | sent
  | accepted
  | answered (response : Response)
  | broken (why : String)
  deriving DecidableEq

structure Connection where
  request : Request
  status : Status
  deriving DecidableEq

inductive Backend where
  | noop
  | gitCli
  deriving DecidableEq

/-- `sidecars` are the caches of the sidecar processes. -/
structure Daemon (ω : Type) where
  git : GitCli ω
  active : Option Backend
  poisoned : Bool
  connections : List Connection
  sidecars : Nat → Store Unit

variable {ω : Type}

def Daemon.world (s : Daemon ω) : ω := s.git.store.world

def Daemon.setGit (s : Daemon ω) (git : GitCli ω) : Daemon ω := { s with git := git }

def Daemon.setStatus (s : Daemon ω) (conn : Nat) (status : Status) : Daemon ω :=
  { s with connections := s.connections.modify conn fun c => { c with status := status } }

def Daemon.attached (backend : Backend) (poolSize : Nat) (store : Store ω)
    (sidecars : Nat → Store Unit) : Daemon ω :=
  ⟨.open poolSize store, some backend, false, [], sidecars⟩

def Daemon.sidecar (i : Nat) (s : Daemon ω) : Store ω :=
  ⟨s.world, (s.sidecars i).treeCache, (s.sidecars i).blobCache, (s.sidecars i).headerCache⟩

def Daemon.setSidecar (i : Nat) (s : Daemon ω) (store : Store ω) : Daemon ω :=
  { s with
    git := s.git.setWorld store.world
    sidecars := Function.update s.sidecars i
      ⟨(), store.treeCache, store.blobCache, store.headerCache⟩ }

section
variable (G : Gix ω) (cat : CatFile ω) (wire : Wire)

def Backend.hydrating : Backend → HydratingObjectStore (Prog (Daemon ω))
  | .noop => ⟨(theStore G).zoom Daemon.git Daemon.setGit, NoopFetcher⟩
  | .gitCli => ⟨(theStore G).zoom Daemon.git Daemon.setGit,
      (GitCliFetcher cat G).zoom Daemon.git Daemon.setGit⟩

def Backend.fetchOne (b : Backend) (oid : ObjectId) : Prog (Daemon ω) (Except String Unit) := do
  match ← ((b.hydrating G cat).header oid).run with
  | .ok _ => return .ok ()
  | .error e => return .error e.display

def lockActive : Prog (Daemon ω) (Except Unit (Option Backend)) :=
  await fun s => some (if s.poisoned then .error () else .ok s.active, s)

def backendOf : ExceptT Response (Prog (Daemon ω)) Backend := do
  match ← (lockActive : Prog (Daemon ω) (Except Unit (Option Backend))) with
  | .error () => throw (.err Codes.internal "daemon state mutex poisoned")
  | .ok none =>
    throw (.err Codes.notAttached "daemon has no active source yet; send Attach first")
  | .ok (some backend) => return backend

def parseOid (hex : String) : Except String ObjectId :=
  (wire.fromHex hex).mapError fun e => "invalid OID `" ++ hex ++ "`: " ++ e

def parseOids (hexes : List String) : ExceptT Response (Prog (Daemon ω)) (List ObjectId) :=
  ExceptT.mk (pure ((hexes.mapM (parseOid wire)).mapError (.err Codes.badOid)))

def objectKindStr : ObjectKind → String
  | .blob => "blob"
  | .tree => "tree"
  | .commit => "commit"
  | .tag => "tag"

def probeToWire : HeaderProbe → HeaderProbeWire
  | .present oid => .present oid.toHex
  | .presentWithHeader oid kind size => .presentWithHeader oid.toHex (objectKindStr kind) size
  | .headerOnly oid kind size => .headerOnly oid.toHex (objectKindStr kind) size
  | .error oid e => .error oid.toHex Codes.fetchFailed e.display

/-- A handler stops at its first refusal, which is its response. -/
def answer (handler : ExceptT Response (Prog (Daemon ω)) Response) : Prog (Daemon ω) Response := do
  match ← handler.run with
  | .ok response => return response
  | .error refusal => return refusal

def handleFetch (hex : String) : Prog (Daemon ω) Response := answer do
  let oid ← ExceptT.mk (pure ((parseOid wire hex).mapError (.err Codes.badOid)))
  let backend ← backendOf
  match ← backend.fetchOne G cat oid with
  | .ok () => return .ok
  | .error e => return .err Codes.fetchFailed e

def handlePrefetchHeaders (hexes : List String) : Prog (Daemon ω) Response := answer do
  let oids ← parseOids wire hexes
  let backend ← backendOf
  let probes ← (backend.hydrating G cat).prefetchHeaders oids
  return .headerProbes (probes.map probeToWire)

def handleFetchMany (hexes : List String) : Prog (Daemon ω) Response := answer do
  let oids ← parseOids wire hexes
  let backend ← backendOf
  let probes ← (backend.hydrating G cat).fetchObjects oids
  return .headerProbes (probes.map probeToWire)

def dispatch : Request → Prog (Daemon ω) Response
  | .fetch hex => handleFetch G cat wire hex
  | .prefetchHeaders hexes => handlePrefetchHeaders G cat wire hexes
  | .fetchMany hexes => handleFetchMany G cat wire hexes

def accept (conn : Nat) : Prog (Daemon ω) Request :=
  await fun s => match s.connections[conn]? with
    | some ⟨request, .sent⟩ => some (request, s.setStatus conn .accepted)
    | _ => none

/-- Writing to a peer that has hung up changes nothing. -/
def reply (conn : Nat) (response : Response) : Prog (Daemon ω) Unit :=
  await fun s => match s.connections[conn]? with
    | some ⟨_, .accepted⟩ => some ((), s.setStatus conn (.answered response))
    | _ => some ((), s)

def handleConnection (conn : Nat) : Prog (Daemon ω) Response := do
  let request ← accept conn
  let response ← dispatch G cat wire request
  reply conn response
  return response

/-- `rpc` up to the sent request; a failed connect or write shows as a broken connection. -/
def send (request : Request) : Prog (Daemon ω) Nat :=
  await fun s => some (s.connections.length,
    { s with connections := s.connections ++ [⟨request, .sent⟩] })

def receive (conn : Nat) : Prog (Daemon ω) (Except String Response) :=
  await fun s => match s.connections[conn]? with
    | some ⟨_, .answered response⟩ => some (.ok response, s)
    | some ⟨_, .broken why⟩ => some (.error why, s)
    | _ => none

namespace DaemonFetcher

def rpc (request : Request) : Prog (Daemon ω) (Except String Response) := do
  let conn ← send request
  receive conn

def daemonErrToFetcher (oid : ObjectId) (code message : String) : FetcherError :=
  if code = Codes.badOid then .backend oid ("bad_oid: " ++ message)
  else if code = Codes.notAttached then .backend oid ("not_attached: " ++ message)
  else if code = Codes.fetchFailed then .backend oid ("daemon fetch_failed: " ++ message)
  else if code = Codes.sourceMismatch then .backend oid ("source_mismatch: " ++ message)
  else if code = Codes.internal then .backend oid ("daemon internal: " ++ message)
  else .backend oid ("daemon " ++ code ++ ": " ++ message)

def fetchObject (oid : ObjectId) : ExceptT FetcherError (Prog (Daemon ω)) Unit := do
  match ← (rpc (.fetch oid.toHex) : Prog (Daemon ω) (Except String Response)) with
  | .ok .ok => return ()
  | .ok (.err code message) => throw (daemonErrToFetcher oid code message)
  | .ok other => throw (.backend oid ("unexpected response to Fetch: " ++ wire.debug other))
  | .error transport => throw (.transport oid transport)

/-- `entry(oid).or_insert(probe)`. -/
def orInsert (found : Probes) (oid : ObjectId) (probe : HeaderProbe) : Probes :=
  if (found.lookup oid).isSome then found else found.insert oid probe

def mergeOne (found : Probes) : HeaderProbeWire → Probes
  | .present oid =>
    match wire.fromHex oid with
    | .ok parsed => orInsert found parsed (.present parsed)
    | .error _ => found
  | .presentWithHeader oid objectKind size =>
    match wire.fromHex oid, kindNamed objectKind with
    | .ok parsed, some kind => orInsert found parsed (.presentWithHeader parsed kind size)
    | _, _ => found
  | .headerOnly oid objectKind size =>
    match wire.fromHex oid, kindNamed objectKind with
    | .ok parsed, some kind => orInsert found parsed (.headerOnly parsed kind size)
    | _, _ => found
  | .error oid code message =>
    match wire.fromHex oid with
    | .ok parsed => orInsert found parsed (.error parsed (daemonErrToFetcher parsed code message))
    | .error _ => found

def takeProbes : List ObjectId → Probes → List HeaderProbe
  | [], _ => []
  | oid :: rest, found =>
    (found.lookup oid).getD (.error oid (.backend oid "daemon omitted probe for this OID")) ::
      takeProbes rest (found.erase oid)

def mergeProbes (oids : List ObjectId) (probes : List HeaderProbeWire) : List HeaderProbe :=
  takeProbes oids (probes.foldl (mergeOne wire) ∅)

/-- The body of `fetch_objects` and of `prefetch_headers`, for a request and its name. -/
def askMany (request : List String → Request) (name : String) (oids : List ObjectId) :
    Prog (Daemon ω) (List HeaderProbe) := do
  if oids.isEmpty then return []
  match ← rpc (request (oids.map ObjectId.toHex)) with
  | .ok (.headerProbes probes) => return mergeProbes wire oids probes
  | .ok (.err code message) =>
    return oids.map fun oid => .error oid (daemonErrToFetcher oid code message)
  | .ok other =>
    return oids.map fun oid =>
      .error oid (.backend oid ("unexpected response to " ++ name ++ ": " ++ wire.debug other))
  | .error transport => return oids.map fun oid => .error oid (.transport oid transport)

def prefetchHeaders (oids : List ObjectId) : Prog (Daemon ω) (List HeaderProbe) :=
  askMany wire .prefetchHeaders "PrefetchHeaders" oids

def fetchObjects (oids : List ObjectId) : Prog (Daemon ω) (List HeaderProbe) :=
  askMany wire .fetchMany "FetchMany" oids

end DaemonFetcher

def DaemonFetcher : Fetcher (Prog (Daemon ω)) :=
  ⟨DaemonFetcher.fetchObject wire, DaemonFetcher.prefetchHeaders wire,
    DaemonFetcher.fetchObjects wire⟩

def sidecarStore (i : Nat) : HydratingObjectStore (Prog (Daemon ω)) :=
  ⟨G.handle.zoom (Daemon.sidecar i) (Daemon.setSidecar i), DaemonFetcher wire⟩

/-- A use of a hydrating store, by the file system above it or its prefetch worker. -/
inductive Call where
  | readBlob (oid : ObjectId)
  | readTree (oid : ObjectId)
  | header (oid : ObjectId)
  | prefetchHeaders (oids : List ObjectId)
  | fetchObjects (oids : List ObjectId)

inductive Outcome where
  | blob (result : Except HydrateError Bytes)
  | tree (result : Except HydrateError (List RawTreeEntry))
  | header (result : Except HydrateError (ObjectKind × Nat))
  | probes (probes : List HeaderProbe)
  | warmed (stats : WarmTreeStats)
  | response (response : Response)
  | refused (response : Response)
  deriving DecidableEq

def Outcome.error : Outcome → Option HydrateError
  | .blob (.error e) | .tree (.error e) | .header (.error e) => some e
  | _ => none

def perform (H : HydratingObjectStore (Prog (Daemon ω))) : Call → Prog (Daemon ω) Outcome
  | .readBlob oid => do return .blob (← (H.readBlob oid).run)
  | .readTree oid => do return .tree (← (H.readTree oid).run)
  | .header oid => do return .header (← (H.header oid).run)
  | .prefetchHeaders oids => do return .probes (← H.prefetchHeaders oids)
  | .fetchObjects oids => do return .probes (← H.fetchObjects oids)

/-- What threads do: handlers of connections, tree walks behind a mount, the mounts the
    daemon serves itself, and the sidecars. -/
inductive Task where
  | connection (conn : Nat)
  | warm (rootTree : ObjectId)
  | mounted (call : Call)
  | sidecar (process : Nat) (call : Call)

def program : Task → Prog (Daemon ω) Outcome
  | .connection conn => do return .response (← handleConnection G cat wire conn)
  | .warm rootTree => do
    match ← (backendOf : ExceptT Response (Prog (Daemon ω)) Backend).run with
    | .error refusal => return .refused refusal
    | .ok backend => return .warmed (← (backend.hydrating G cat).warmTreeClosure rootTree)
  | .mounted call => do
    match ← (backendOf : ExceptT Response (Prog (Daemon ω)) Backend).run with
    | .error refusal => return .refused refusal
    | .ok backend => perform (backend.hydrating G cat) call
  | .sidecar process call => perform (sidecarStore G wire process) call

/-- What happens outside the threads: the world moves on (packs land, children answer, disks
    fail), a header is evicted, a transport breaks, another client sends a request. -/
inductive Incident (ω : Type) where
  | world (w : ω)
  | evict (oid : ObjectId)
  | disconnect (conn : Nat) (why : String)
  | request (request : Request)

def Daemon.evictHeader (s : Daemon ω) (oid : ObjectId) : Daemon ω :=
  let cache := s.git.store.headerCache
  s.setGit (s.git.setStore
    { s.git.store with headerCache := { cache with entries := cache.entries.erase oid } })

def incident (s : Daemon ω) : Incident ω → Option (Daemon ω)
  | .world w => some (s.setGit (s.git.setWorld w))
  | .evict oid => some (s.evictHeader oid)
  | .disconnect conn why => some (s.setStatus conn (.broken why))
  | .request request => some { s with connections := s.connections ++ [⟨request, .sent⟩] }

def OnlyArrivals (resident : ω → ObjectId → Prop) (s : Daemon ω) : Incident ω → Prop
  | .world w => ∀ oid, resident s.world oid → resident w oid
  | _ => True

def daemonStep : Pool (Daemon ω) Task Outcome → Event Task (Incident ω) →
    Option (Pool (Daemon ω) Task Outcome) :=
  Pool.step (program G cat wire) incident

end
end ProjgitDaemon
