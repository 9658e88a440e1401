import Projgit.GvfsUrl
import Projgit.Lib.FileNames
import Projgit.Lib.Ownership
import Projgit.Residency

/-!
`raw_fetch` and `write_loose_object` of the GVFS fetcher (`fetcher/gvfs.rs`): any number of
processes download objects into one object database. A write arrives byte by byte, and any
call of the system may fail. Whatever the order of their steps, and wherever a process stops,
an object's path never shows a file that is not whole.
-/
namespace ProjgitGvfsHttp
open FileNames Interleave LabelledRuns ProjgitStore ProjgitErrors Utf8Bytes
variable {ω α : Type}

/-- `objects/<dir>/<file>` -/
structure LoosePath where
  dir : String
  file : String
  deriving DecidableEq

/-- `hex.split_at(2)` -/
def loosePath (oid : ObjectId) : LoosePath :=
  ⟨String.ofList (oid.toHex.toList.take 2), String.ofList (oid.toHex.toList.drop 2)⟩

def tmpPath (oid : ObjectId) (pid suffix : Nat) : LoosePath :=
  ⟨(loosePath oid).dir, "tmp_projgit_gvfs_" ++ toString pid ++ "_" ++ toString suffix⟩

/-- The object database and everything else outside the process. -/
structure Host (ω : Type) where
  objects : Dir LoosePath UInt8
  packed : ObjectId → Bool
  rest : ω

inductive UreqError where
  | status (code : Nat)
  | transport (text : String)

/-- What the system and the server answer; errors of files are the texts of `std::io::Error`.
    Directories are not kept: a missing one is a reason for `openNew` to fail. `stat` is
    whether a path could be looked at. The answer to `get` is the response, and in it what
    reading its body came to. -/
structure Platform (ω : Type) where
  get : String → List (String × String) → ω → Except UreqError (Except String Bytes) × ω
  stat : LoosePath → ω → Bool × ω
  createDirAll : String → ω → Except String Unit × ω
  openNew : LoosePath → ω → Except String Unit × ω
  write : Nat → ω → Except String Unit × ω
  rename : LoosePath → LoosePath → ω → Except String Unit × ω
  removeFile : LoosePath → ω → Except String Unit × ω
  uniqueSuffix : ω → Nat × ω

def onHost (act : Host ω → α × Host ω) : Prog (Store (Host ω)) α :=
  await fun s => some ((act s.world).1, { s with world := (act s.world).2 })

def system (op : ω → α × ω) : Prog (Store (Host ω)) α :=
  onHost fun h => ((op h.rest).1, { h with rest := (op h.rest).2 })

/-- A call on files: unless the system refuses, `effect` happens. -/
def fileCall (op : ω → Except String Unit × ω)
    (effect : Dir LoosePath UInt8 → Except String (α × Dir LoosePath UInt8)) :
    ExceptT String (Prog (Store (Host ω))) α :=
  ExceptT.mk (onHost fun h =>
    match (op h.rest).1.bind fun _ => effect h.objects with
    | .error e => (.error e, { h with rest := (op h.rest).2 })
    | .ok (a, objects) => (.ok a, { h with objects := objects, rest := (op h.rest).2 }))

section
variable (sys : Platform ω)

def pathExists (path : LoosePath) : Prog (Store (Host ω)) Bool :=
  onHost fun h => ((sys.stat path h.rest).1 && (h.objects.names path).isSome,
    { h with rest := (sys.stat path h.rest).2 })

/-- `create_new(true).write(true)`; the open file is its inode. -/
def openNew (path : LoosePath) : ExceptT String (Prog (Store (Host ω))) Nat :=
  fileCall (sys.openNew path) fun d =>
    match d.names path with
    | some _ => .error "File exists (os error 17)"
    | none => .ok (d.next, d.create path [])

def writeAll (file : Nat) : Bytes → ExceptT String (Prog (Store (Host ω))) Unit
  | [] => return ()
  | b :: rest => do
    fileCall (sys.write file) fun d => .ok ((), d.append file b)
    writeAll file rest

def renameFile (source target : LoosePath) : ExceptT String (Prog (Store (Host ω))) Unit :=
  fileCall (sys.rename source target) fun d =>
    match d.names source with
    | some _ => .ok ((), d.rename source target)
    | none => .error "No such file or directory (os error 2)"

def removeFile (path : LoosePath) : ExceptT String (Prog (Store (Host ω))) Unit :=
  fileCall (sys.removeFile path) fun d =>
    match d.names path with
    | some _ => .ok ((), d.unlink path)
    | none => .error "No such file or directory (os error 2)"

def writeLooseObject (pid : Nat) (oid : ObjectId) (compressed : Bytes) :
    ExceptT String (Prog (Store (Host ω))) Unit := do
  let objectPath := loosePath oid
  if ← (pathExists sys objectPath : Prog (Store (Host ω)) Bool) then return ()
  ExceptT.mk (system (sys.createDirAll objectPath.dir))
  let suffix ← (system sys.uniqueSuffix : Prog (Store (Host ω)) Nat)
  let tmp := tmpPath oid pid suffix
  let file ← openNew sys tmp
  writeAll sys file compressed
  if ← (pathExists sys objectPath : Prog (Store (Host ω)) Bool) then
    let _ ← ExceptT.lift (removeFile sys tmp).run
    return ()
  match ← ExceptT.lift (renameFile sys tmp objectPath).run with
  | .ok () => return ()
  | .error e =>
    let _ ← ExceptT.lift (removeFile sys tmp).run
    throw e

def httpErrorToFetcher (oid : ObjectId) : UreqError → FetcherError
  | .status 404 => .refused oid "GVFS object endpoint returned 404"
  | .status code => .transport oid ("GVFS object endpoint returned HTTP " ++ toString code)
  | .transport text => .transport oid text

def GvfsClient.getLooseObject (client : GvfsClient) (oid : ObjectId) :
    ExceptT FetcherError (Prog (Store (Host ω))) Bytes := do
  match ← (system (sys.get (client.objectUrl oid) client.authHeaders) :
      Prog (Store (Host ω)) (Except UreqError (Except String Bytes))) with
  | .error e => throw (httpErrorToFetcher oid e)
  | .ok (.error e) => throw (.transport oid ("read GVFS object response: " ++ e))
  | .ok (.ok bytes) => return bytes

/-- One call of `raw_fetch`, by one of the processes that share the database. -/
structure Download where
  pid : Nat
  client : GvfsClient
  oid : ObjectId

def rawFetch (G : Gix (Host ω)) (task : Download) :
    ExceptT FetcherError (Prog (Store (Host ω))) Unit := do
  if ← (ObjectStore.contains G task.oid : Prog (Store (Host ω)) Bool) then return ()
  let bytes ← task.client.getLooseObject sys task.oid
  ExceptT.adapt (fun e => .backend task.oid ("write loose object: " ++ e))
    (writeLooseObject sys task.pid task.oid bytes)
  if ← (ObjectStore.contains G task.oid : Prog (Store (Host ω)) Bool) then return ()
  throw (.notPresentAfterFetch task.oid)

end

/-- What else happens to the database: another git puts a loose object in its place, a pack
    with an object arrives, the loose copy of a packed object goes, time passes. `complete`
    is what a file of the object may hold. -/
inductive Elsewhere (ω : Type) where
  | install (oid : ObjectId) (bytes : Bytes)
  | pack (oid : ObjectId)
  | prunePacked (oid : ObjectId)
  | drift (rest : ω)

def elsewhere (complete : ObjectId → Bytes → Bool) (s : Store (Host ω)) :
    Elsewhere ω → Option (Store (Host ω))
  | .install oid bytes =>
    if complete oid bytes then
      some { s with world :=
        { s.world with objects := s.world.objects.create (loosePath oid) bytes } }
    else none
  | .pack oid =>
    some { s with world := { s.world with packed := Function.update s.world.packed oid true } }
  | .prunePacked oid =>
    if s.world.packed oid then
      some { s with world := { s.world with objects := s.world.objects.unlink (loosePath oid) } }
    else none
  | .drift rest => some { s with world := { s.world with rest := rest } }

end ProjgitGvfsHttp
