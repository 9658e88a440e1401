import Projgit.ObjectStore

/-!
`Fetcher` and `HydratingObjectStore` (`fetcher.rs`): reads that turn a missing object
into one fetch and one retry, and the batch calls that warm the header cache. A fetcher
is a record of methods in the monad of its caller, which shares the store with it.
-/
namespace ProjgitStore
open Utf8Bytes ProjgitCaches

inductive FetcherError where
  | refused : ObjectId → String → FetcherError
  | transport : ObjectId → String → FetcherError
  | notPresentAfterFetch : ObjectId → FetcherError
  | notHydratable : ObjectId → FetcherError
  | backend : ObjectId → String → FetcherError
  deriving DecidableEq

def FetcherError.display : FetcherError → String
  | .refused oid why => "remote refused object " ++ oid.toHex ++ ": " ++ why
  | .transport oid why => "transport error fetching " ++ oid.toHex ++ ": " ++ why
  | .notPresentAfterFetch oid =>
    "post-fetch verification failed for " ++ oid.toHex ++ ": object still absent"
  | .notHydratable oid => "fetcher cannot hydrate " ++ oid.toHex
  | .backend oid why => "fetch backend error for " ++ oid.toHex ++ ": " ++ why

inductive HeaderProbe where
  | present : ObjectId → HeaderProbe
  | presentWithHeader : ObjectId → ObjectKind → Nat → HeaderProbe
  | headerOnly : ObjectId → ObjectKind → Nat → HeaderProbe
  | error : ObjectId → FetcherError → HeaderProbe
  deriving DecidableEq

def HeaderProbe.oid : HeaderProbe → ObjectId
  | .present oid | .presentWithHeader oid _ _ | .headerOnly oid _ _ | .error oid _ => oid

inductive HydrateError where
  | store : ObjectStoreError → HydrateError
  | fetcher : FetcherError → HydrateError
  deriving DecidableEq

def HydrateError.display : HydrateError → String
  | .store e => e.display
  | .fetcher e => e.display

universe v
variable {m : Type → Type v} [Monad m] {α : Type}

structure Fetcher (m : Type → Type v) where
  fetchObject : ObjectId → ExceptT FetcherError m Unit
  prefetchHeaders : List ObjectId → m (List HeaderProbe)
  fetchObjects : List ObjectId → m (List HeaderProbe)

/-- The default body of `prefetch_headers` and of `fetch_objects`. -/
def fetchEach (fetchObject : ObjectId → ExceptT FetcherError m Unit) (oids : List ObjectId) :
    m (List HeaderProbe) :=
  oids.mapM fun oid => do
    match ← (fetchObject oid).run with
    | .ok () => return .present oid
    | .error e => return .error oid e

def probeByFetch (fetchObject : ObjectId → ExceptT FetcherError m Unit) (oid : ObjectId) :
    m HeaderProbe := do
  match ← (fetchObject oid).run with
  | .ok () => return .present oid
  | .error e => return .error oid e

theorem fetchEach_cons [LawfulMonad m] (fetchObject : ObjectId → ExceptT FetcherError m Unit)
    (oid : ObjectId) (rest : List ObjectId) :
    fetchEach fetchObject (oid :: rest) = (do
      let p ← probeByFetch fetchObject oid
      let more ← fetchEach fetchObject rest
      return p :: more) :=
  List.mapM_cons

def Fetcher.ofFetchObject (fetchObject : ObjectId → ExceptT FetcherError m Unit) : Fetcher m :=
  ⟨fetchObject, fetchEach fetchObject, fetchEach fetchObject⟩

def NoopFetcher : Fetcher m := .ofFetchObject fun oid => throw (.notHydratable oid)

structure HydratingObjectStore (m : Type → Type v) where
  store : StoreHandle m
  fetcher : Fetcher m

def absentAfterFetch : ObjectStoreError → HydrateError
  | .missingObject oid => .fetcher (.notPresentAfterFetch oid)
  | other => .store other

namespace HydratingObjectStore
variable (H : HydratingObjectStore m)

/-- On `MissingObject`, fetch and read once more: `read_blob`, `read_tree` and `header`. -/
def hydrateOnMiss (read : ObjectId → ExceptT ObjectStoreError m α) (oid : ObjectId) :
    ExceptT HydrateError m α := do
  match ← (read oid).run with
  | .ok a => return a
  | .error (.missingObject _) =>
    ExceptT.adapt .fetcher (H.fetcher.fetchObject oid)
    ExceptT.adapt absentAfterFetch (read oid)
  | .error e => throw (.store e)

def readBlob (oid : ObjectId) : ExceptT HydrateError m Bytes :=
  H.hydrateOnMiss H.store.readBlob oid

def readTree (oid : ObjectId) : ExceptT HydrateError m (List RawTreeEntry) :=
  H.hydrateOnMiss H.store.readTree oid

def header (oid : ObjectId) : ExceptT HydrateError m (ObjectKind × Nat) :=
  H.hydrateOnMiss H.store.header oid

/-- The pre-pass of both batch calls: the inputs that fail a local test. -/
def pending (absent : ObjectId → m Bool) : List ObjectId → m (List ObjectId)
  | [] => return []
  | oid :: rest => do
    let missing ← absent oid
    let more ← pending absent rest
    return if missing then oid :: more else more

def publishProbe : HeaderProbe → m Unit
  | .presentWithHeader oid kind size | .headerOnly oid kind size =>
    H.store.putHeaderCache oid kind size
  | .present oid => do
    let _ ← (H.store.header oid).run
  | .error _ _ => return ()

def publishProbes : List HeaderProbe → m Unit
  | [] => return ()
  | probe :: rest => do
    H.publishProbe probe
    publishProbes rest

def byOid (probes : List HeaderProbe) : AList (fun _ : ObjectId => HeaderProbe) :=
  probes.foldl (fun found probe => found.insert probe.oid probe) ∅

/-- The answers in input order. Each probe is handed out once; an input without one
    counts as present. -/
def reassemble : AList (fun _ : ObjectId => HeaderProbe) → List ObjectId → List HeaderProbe
  | _, [] => []
  | found, oid :: rest =>
    (found.lookup oid).getD (.present oid) :: reassemble (found.erase oid) rest

def batch (absent : ObjectId → m Bool) (ask : List ObjectId → m (List HeaderProbe))
    (oids : List ObjectId) : m (List HeaderProbe) := do
  let query ← pending absent oids
  if query.isEmpty then return oids.map .present
  let probes ← ask query
  H.publishProbes probes
  return reassemble (byOid probes) oids

def prefetchHeaders (oids : List ObjectId) : m (List HeaderProbe) :=
  H.batch (fun oid => do return !(← (H.store.header oid).run).toBool)
    H.fetcher.prefetchHeaders oids

def fetchObjects (oids : List ObjectId) : m (List HeaderProbe) := do
  if oids.isEmpty then return []
  H.batch (fun oid => do return !(← H.store.contains oid)) H.fetcher.fetchObjects oids

end HydratingObjectStore
end ProjgitStore
