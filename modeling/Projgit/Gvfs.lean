import Projgit.GitCli

/-!
`GvfsFetcher::prefetch_headers` (`fetcher/gvfs.rs`): sizes of absent objects from one
`POST /gvfs/sizes`, without their bytes.
-/
namespace ProjgitGvfs
open ProjgitStore ProjgitGitCli Interleave
variable {ω : Type}

structure SizeEntry where
  id : String
  size : Nat
  deriving DecidableEq

/-- The exchange with the server: the ids posted as a JSON list, and the decoded entries of
    the response or the text of what went wrong. `fromHex` is `ObjectId::from_hex`. -/
structure GvfsClient (ω : Type) where
  postSizes : List String → ω → Except String (List SizeEntry) × ω
  fromHex : String → Except String ObjectId

abbrev Sizes := AList (fun _ : ObjectId => Nat)

def fileSizes (client : GvfsClient ω) : List SizeEntry → Sizes → Except String Sizes
  | [], out => .ok out
  | entry :: rest, out =>
    match client.fromHex entry.id with
    | .ok oid => fileSizes client rest (out.insert oid entry.size)
    | .error e => .error ("parse GVFS sizes object id `" ++ entry.id ++ "`: " ++ e)

def sizes (client : GvfsClient ω) (oids : List ObjectId) :
    Prog (Store ω) (Except String Sizes) :=
  await fun s =>
    let (answer, w) := client.postSizes (oids.map ObjectId.toHex) s.world
    some (answer.bind (fileSizes client · ∅), { s with world := w })

section
variable (client : GvfsClient ω) (G : Gix ω)

def partitionSizes : List ObjectId → Probes → Prog (Store ω) (Probes × List ObjectId)
  | [], found => return (found, [])
  | oid :: rest, found => do
    if ← (G.handle : StoreHandle (Prog (Store ω))).contains oid then
      partitionSizes rest (found.insert oid (.present oid))
    else
      let (found', remote) ← partitionSizes rest found
      return (found', oid :: remote)

def probeSize (sizes : Sizes) (oid : ObjectId) : HeaderProbe :=
  match sizes.lookup oid with
  | some size => .headerOnly oid .blob size
  | none => .error oid (.refused oid "GVFS /sizes omitted object")

def reorderProbes : List ObjectId → Probes → List HeaderProbe
  | [], _ => []
  | oid :: rest, found =>
    (found.lookup oid).getD (.error oid (.backend oid "gvfs prefetch_headers: missing result")) ::
      reorderProbes rest (found.erase oid)

def prefetchHeaders (oids : List ObjectId) : Prog (Store ω) (List HeaderProbe) := do
  if oids.isEmpty then return []
  let (found, remote) ← partitionSizes G oids ∅
  if remote.isEmpty then return reorderProbes oids found
  match ← sizes client remote with
  | .ok sizes => return reorderProbes oids (insertAll (probeSize sizes) remote found)
  | .error msg =>
    return reorderProbes oids (insertAll (fun oid => .error oid (.transport oid msg)) remote found)

end
end ProjgitGvfs
