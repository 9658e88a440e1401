import Mathlib.Algebra.Group.Nat.Defs
import Mathlib.Data.Finset.Basic
import Projgit.Coalesce
import Projgit.Fetcher
import Projgit.Lib.Interleave

/-!
`GitCliFetcher` (`fetcher/git_cli.rs`) as programs over the state its callers share: the
store, the coalescer, the pool of `git cat-file --batch-check` children and the prefetch
claims. One action is one lock section, one access of a cache or of the disk, or one
operation on a pipe. The children live in the same opaque world as the object database;
`CatFile` is what the operating system answers. Tracing is left out.
-/
namespace ProjgitStore
open Interleave
variable {σ τ : Type}

def StoreHandle.zoom (get : τ → σ) (set : τ → σ → τ) (h : StoreHandle (Prog σ)) :
    StoreHandle (Prog τ) where
  contains oid := (h.contains oid).zoom get set
  header oid := ExceptT.mk ((h.header oid).run.zoom get set)
  putHeaderCache oid kind size := (h.putHeaderCache oid kind size).zoom get set
  readBlob oid := ExceptT.mk ((h.readBlob oid).run.zoom get set)
  readTree oid := ExceptT.mk ((h.readTree oid).run.zoom get set)
  commitTime oid := ExceptT.mk ((h.commitTime oid).run.zoom get set)
  commitTree oid := ExceptT.mk ((h.commitTree oid).run.zoom get set)
  resolveRef name := ExceptT.mk ((h.resolveRef name).run.zoom get set)

def Fetcher.zoom (get : τ → σ) (set : τ → σ → τ) (F : Fetcher (Prog σ)) : Fetcher (Prog τ) where
  fetchObject oid := ExceptT.mk ((F.fetchObject oid).run.zoom get set)
  prefetchHeaders oids := (F.prefetchHeaders oids).zoom get set
  fetchObjects oids := (F.fetchObjects oids).zoom get set

end ProjgitStore

namespace ProjgitGitCli
open ProjgitStore ProjgitCoalesce Interleave

/-- The pipes of a child. Errors are the texts of `std::io::Error`; `readLine` is
    `read_line`, with the newline, and empty at the end of the stream. `reap` closes stdin
    and waits. `debug` is `{:?}` of a string. -/
structure CatFile (ω : Type) where
  spawn : ω → Except String Nat × ω
  writeLine : Nat → String → ω → Except String Unit × ω
  flush : Nat → ω → Except String Unit × ω
  readLine : Nat → ω → Except String String × ω
  reap : Nat → ω → Unit × ω
  debug : String → String

structure Slot where
  held : Bool
  child : Option Nat
  deriving DecidableEq

structure BatchChildPool where
  slots : List Slot
  next : Nat

/-- `k` empty slots; `open_with_pool_size` asks for at least one. -/
def BatchChildPool.new (k : Nat) : BatchChildPool := ⟨List.replicate (max k 1) ⟨false, none⟩, 0⟩

/-- The fields of a `GitCliFetcher` and the store it shares. A call of `do_or_join` is
    numbered by `nextCall`. -/
structure GitCli (ω : Type) where
  store : Store ω
  coalescer : Machine ObjectId Unit
  nextCall : CallId
  batch : BatchChildPool
  claims : Finset ObjectId

variable {ω α : Type}

def GitCli.open (poolSize : Nat) (store : Store ω) : GitCli ω :=
  ⟨store, .new, 0, .new poolSize, ∅⟩

def GitCli.setStore (s : GitCli ω) (store : Store ω) : GitCli ω := { s with store := store }

def GitCli.setWorld (s : GitCli ω) (w : ω) : GitCli ω :=
  { s with store := { s.store with world := w } }

def GitCli.setSlots (s : GitCli ω) (slots : List Slot) : GitCli ω :=
  { s with batch := { s.batch with slots := slots } }

section
variable (cat : CatFile ω)

def system (op : ω → α × ω) : Prog (GitCli ω) α :=
  await fun s => some ((op s.store.world).1, s.setWorld (op s.store.world).2)

def pipe (op : ω → Except String α × ω) : ExceptT String (Prog (GitCli ω)) α :=
  ExceptT.mk (system op)

namespace BatchChild

def stripNewline (line : String) : String :=
  match line.toList.reverse with
  | '\n' :: '\r' :: rest => String.ofList rest.reverse
  | '\n' :: rest => String.ofList rest.reverse
  | _ => line

def readLine (closed : String) (child : Nat) : ExceptT String (Prog (GitCli ω)) String := do
  let line ← pipe (cat.readLine child)
  if line = "" then throw closed else return stripNewline line

def query (oid : ObjectId) (child : Nat) : ExceptT String (Prog (GitCli ω)) String := do
  pipe (cat.writeLine child oid.toHex)
  pipe (cat.flush child)
  readLine cat "git cat-file --batch-check closed stdout" child

def writeAll (child : Nat) : List ObjectId → ExceptT String (Prog (GitCli ω)) Unit
  | [] => return ()
  | oid :: rest => do
    pipe (cat.writeLine child oid.toHex)
    writeAll child rest

def readAll (child : Nat) : List ObjectId → ExceptT String (Prog (GitCli ω)) (List String)
  | [] => return []
  | _ :: rest => do
    let line ← readLine cat "git cat-file --batch-check closed stdout mid-batch" child
    let more ← readAll child rest
    return line :: more

def queryBatch (oids : List ObjectId) (child : Nat) :
    ExceptT String (Prog (GitCli ω)) (List String) := do
  writeAll cat child oids
  pipe (cat.flush child)
  readAll cat child oids

end BatchChild

namespace BatchChildPool

def tryLock (i : Nat) : Prog (GitCli ω) Bool :=
  await fun s => match s.batch.slots[i]? with
    | some ⟨false, child⟩ => some (true, s.setSlots (s.batch.slots.set i ⟨true, child⟩))
    | _ => some (false, s)

def lock (i : Nat) : Prog (GitCli ω) Unit :=
  await fun s => match s.batch.slots[i]? with
    | some ⟨false, child⟩ => some ((), s.setSlots (s.batch.slots.set i ⟨true, child⟩))
    | _ => none

def firstFree : List Nat → Prog (GitCli ω) (Option Nat)
  | [] => return none
  | i :: rest => do
    if ← tryLock i then return some i else firstFree rest

/-- The number of slots and the round-robin start, from the wrapping counter. -/
def advance : Prog (GitCli ω) (Nat × Nat) :=
  await fun s => some ((s.batch.slots.length, s.batch.next % s.batch.slots.length),
    { s with batch := { s.batch with next := (s.batch.next + 1) % 2 ^ 64 } })

def acquire : Prog (GitCli ω) Nat := do
  let (n, start) ← advance
  match ← firstFree ((List.range n).map fun i => (start + i) % n) with
  | some i => return i
  | none =>
    lock start
    return start

def childOf (i : Nat) : Prog (GitCli ω) (Option Nat) :=
  await fun s => some ((s.batch.slots[i]?).bind Slot.child, s)

def setChild (i : Nat) (child : Option Nat) : Prog (GitCli ω) Unit :=
  await fun s => some ((), s.setSlots (s.batch.slots.set i ⟨true, child⟩))

def release (i : Nat) : Prog (GitCli ω) Unit :=
  await fun s => some ((), s.setSlots (s.batch.slots.modify i fun slot => ⟨false, slot.child⟩))

def liveChild (i : Nat) : ExceptT String (Prog (GitCli ω)) Nat := do
  match ← (childOf i : Prog (GitCli ω) (Option Nat)) with
  | some child => return child
  | none =>
    let child ← pipe cat.spawn
    (setChild i (some child) : Prog (GitCli ω) Unit)
    return child

/-- The outer error is a failed spawn, the inner one is the closure's own. -/
def withChild (i : Nat) (f : Nat → ExceptT String (Prog (GitCli ω)) α) :
    ExceptT String (Prog (GitCli ω)) (Except String α) := do
  let child ← liveChild cat i
  (f child).run

def reset (i : Nat) : Prog (GitCli ω) Unit := do
  match ← childOf i with
  | none => return ()
  | some child =>
    system (cat.reap child)
    setChild i none

end BatchChildPool

inductive ParsedResponse where
  | header (kind : ObjectKind) (size : Nat)
  | missing
  deriving DecidableEq

/-- The text before the first blank, and what follows it. -/
def cutAtSpace (cs : List Char) : List Char × Option (List Char) :=
  match cs.dropWhile (· ≠ ' ') with
  | [] => (cs, none)
  | _ :: rest => (cs.takeWhile (· ≠ ' '), some rest)

def eqIgnoreAsciiCase (a b : List Char) : Bool := a.map Char.toLower = b.map Char.toLower

def isWhitespace (c : Char) : Bool :=
  (9 ≤ c.val && c.val ≤ 13) || (0x2000 ≤ c.val && c.val ≤ 0x200a) ||
    c.val ∈ [0x20, 0x85, 0xa0, 0x1680, 0x2028, 0x2029, 0x202f, 0x205f, 0x3000]

def trim (cs : List Char) : List Char :=
  ((cs.dropWhile isWhitespace).reverse.dropWhile isWhitespace).reverse

/-- `u64::from_str`. -/
def parseU64 (cs : List Char) : Option Nat :=
  let digits := if cs.head? = some '+' then cs.tail else cs
  let value := digits.foldl (fun n c => 10 * n + (c.toNat - '0'.toNat)) 0
  if digits ≠ [] ∧ digits.all Char.isDigit ∧ value < 2 ^ 64 then some value else none

def kindNamed : String → Option ObjectKind
  | "blob" => some .blob
  | "tree" => some .tree
  | "commit" => some .commit
  | "tag" => some .tag
  | _ => none

def parseLine (oid : ObjectId) (line : String) : Except FetcherError ParsedResponse :=
  let (sha, afterSha) := cutAtSpace line.toList
  let (kind, rest) := match afterSha with
    | none => ([], none)
    | some tail => cutAtSpace tail
  if !eqIgnoreAsciiCase sha oid.toHex.toList then
    .error (.backend oid
      ("git cat-file --batch-check echoed unexpected sha: " ++ cat.debug line))
  else match kindNamed (String.ofList kind) with
    | some kind =>
      match rest.bind fun size => parseU64 (trim size) with
      | some size => .ok (.header kind size)
      | none => .error (.backend oid
          ("git cat-file --batch-check: unparseable size: " ++ cat.debug line))
    | none =>
      if String.ofList kind = "missing" then .ok .missing
      else .error (.backend oid ("git cat-file --batch-check: unknown response kind " ++
        cat.debug (String.ofList kind) ++ ": " ++ cat.debug line))

section
variable (G : Gix ω)

def theStore : StoreHandle (Prog (GitCli ω)) := G.handle.zoom GitCli.store GitCli.setStore

def classify (oid : ObjectId) (line : String) : ExceptT FetcherError (Prog (GitCli ω)) Unit := do
  match ← ExceptT.mk (pure (parseLine cat oid line)) with
  | .header _ _ =>
    if ← (theStore G).contains oid then return ()
    else throw (.notPresentAfterFetch oid)
  | .missing => throw (.refused oid "git cat-file --batch-check reported missing")

/-- The attempts still to be made, and the last I/O error. -/
def rawFetchFrom (oid : ObjectId) :
    Nat → Option String → ExceptT FetcherError (Prog (GitCli ω)) Unit
  | 0, lastIoErr =>
    throw (.transport oid
      ("git cat-file --batch-check: " ++ lastIoErr.getD "exhausted retries"))
  | attempts + 1, _ => do
    let slot ← (BatchChildPool.acquire : Prog (GitCli ω) Nat)
    if ← (theStore G).contains oid then
      (BatchChildPool.release slot : Prog (GitCli ω) Unit)
      return ()
    match ← (BatchChildPool.withChild cat slot (BatchChild.query cat oid)).run with
    | .error spawnErr =>
      (BatchChildPool.release slot : Prog (GitCli ω) Unit)
      throw (.backend oid ("spawn git cat-file: " ++ spawnErr))
    | .ok (.ok line) =>
      (BatchChildPool.release slot : Prog (GitCli ω) Unit)
      classify cat G oid line
    | .ok (.error e) =>
      (BatchChildPool.reset cat slot : Prog (GitCli ω) Unit)
      (BatchChildPool.release slot : Prog (GitCli ω) Unit)
      rawFetchFrom oid attempts (some e)

def rawFetch (oid : ObjectId) : ExceptT FetcherError (Prog (GitCli ω)) Unit :=
  rawFetchFrom cat G oid 2 none

end

def coalesce (a : Action ObjectId Unit) : Prog (GitCli ω) Unit :=
  await fun s => (step s.coalescer a).map fun next => ((), { s with coalescer := next })

def leads : Phase ObjectId Unit → Bool
  | .leading .. => true
  | _ => false

def startCall (key : ObjectId) : Prog (GitCli ω) (CallId × Bool) :=
  await fun s => (step s.coalescer (.start s.nextCall key)).map fun next =>
    ((s.nextCall, leads (next.calls s.nextCall)),
      { s with coalescer := next, nextCall := s.nextCall + 1 })

def awaitResult (call : CallId) : Prog (GitCli ω) (Except String Unit) :=
  await fun s => (step s.coalescer (.check call)).bind fun next =>
    match next.calls call with
    | .returned _ _ _ result => some (result, { s with coalescer := next })
    | _ => none

def doOrJoin (key : ObjectId) (f : ExceptT FetcherError (Prog (GitCli ω)) Unit) :
    Prog (GitCli ω) (Except String Unit) := do
  let (call, leader) ← startCall key
  if leader then
    let result := (← f.run).mapError FetcherError.display
    coalesce (.finish call result)
    coalesce (.publish call)
    coalesce (.evict call)
    return result
  else awaitResult call

def mentions (text word : String) : Bool := decide (word.toList <:+: text.toList)

/-- The coalescer keeps only the text of an error; its class is guessed from that. -/
def reclassify (oid : ObjectId) (text : String) : FetcherError :=
  if mentions text "Refused" then .refused oid text
  else if mentions text "Transport" then .transport oid text
  else if mentions text "NotPresentAfterFetch" then .notPresentAfterFetch oid
  else .backend oid text

section
variable (G : Gix ω)

def fetchObject (oid : ObjectId) : ExceptT FetcherError (Prog (GitCli ω)) Unit := do
  if ← (theStore G).contains oid then return ()
  ExceptT.mk do return (← doOrJoin oid (rawFetch cat G oid)).mapError (reclassify oid)

def partitionLocal : List ObjectId → Prog (GitCli ω) (List ObjectId × List ObjectId)
  | [] => return ([], [])
  | oid :: rest => do
    let present ← (theStore G).contains oid
    let (present', absent) ← partitionLocal rest
    return if present then (oid :: present', absent) else (present', oid :: absent)

end

/-- `PrefetchClaims::claim` under its lock: the lead list and the set after it. -/
def claimAll : List ObjectId → Finset ObjectId → List ObjectId × Finset ObjectId
  | [], inflight => ([], inflight)
  | oid :: rest, inflight =>
    if oid ∈ inflight then claimAll rest inflight
    else
      let (lead, inflight') := claimAll rest (insert oid inflight)
      (oid :: lead, inflight')

def claim (candidates : List ObjectId) : Prog (GitCli ω) (List ObjectId) :=
  await fun s => some ((claimAll candidates s.claims).1,
    { s with claims := (claimAll candidates s.claims).2 })

def unclaim (lead : List ObjectId) : Prog (GitCli ω) Unit :=
  if lead.isEmpty then return ()
  else await fun s => some ((), { s with claims := s.claims \ lead.toFinset })

abbrev Probes := AList (fun _ : ObjectId => HeaderProbe)

def insertAll (probe : ObjectId → HeaderProbe) (oids : List ObjectId) (found : Probes) : Probes :=
  oids.foldl (fun found oid => found.insert oid (probe oid)) found

inductive BatchOutcome where
  | spawnFailed (why : String)
  | lines (lines : List String)
  | exhausted (lastIoErr : Option String)

def askBatch (lead : List ObjectId) : Nat → Option String → Prog (GitCli ω) BatchOutcome
  | 0, lastIoErr => return .exhausted lastIoErr
  | attempts + 1, _ => do
    let slot ← BatchChildPool.acquire
    match ← (BatchChildPool.withChild cat slot (BatchChild.queryBatch cat lead)).run with
    | .error spawnErr =>
      BatchChildPool.release slot
      return .spawnFailed spawnErr
    | .ok (.ok lines) =>
      BatchChildPool.release slot
      return .lines lines
    | .ok (.error e) =>
      BatchChildPool.reset cat slot
      BatchChildPool.release slot
      askBatch lead attempts (some e)

section
variable (G : Gix ω)

/-- An id that a concurrent batch has claimed: whatever the store has now. -/
def probeSkipped (lead : List ObjectId) : List ObjectId → Probes → Prog (GitCli ω) Probes
  | [], found => return found
  | oid :: rest, found => do
    if oid ∈ lead then probeSkipped lead rest found
    else
      let probe : HeaderProbe := match ← ((theStore G).header oid).run with
        | .ok (kind, size) => .presentWithHeader oid kind size
        | .error _ => .present oid
      probeSkipped lead rest (found.insert oid probe)

def probeLine (oid : ObjectId) (line : String) : Prog (GitCli ω) HeaderProbe :=
  match parseLine cat oid line with
  | .ok (.header kind size) => do
    if ← (theStore G).contains oid then return .presentWithHeader oid kind size
    else return .error oid (.notPresentAfterFetch oid)
  | .ok .missing =>
    return .error oid (.refused oid "git cat-file --batch-check reported missing")
  | .error e => return .error oid e

def probeLines : List (ObjectId × String) → Probes → Prog (GitCli ω) Probes
  | [], found => return found
  | (oid, line) :: rest, found => do
    let probe ← probeLine cat G oid line
    probeLines rest (found.insert oid probe)

def probeLead (lead : List ObjectId) (found : Probes) : Prog (GitCli ω) Probes := do
  if lead.isEmpty then return found
  match ← askBatch cat lead 2 none with
  | .spawnFailed why =>
    return insertAll (fun oid => .error oid (.backend oid ("spawn git cat-file: " ++ why)))
      lead found
  | .lines lines => probeLines cat G (lead.zip lines) found
  | .exhausted lastIoErr =>
    return insertAll (fun oid => .error oid (.transport oid
      ("git cat-file --batch-check (batch): " ++ lastIoErr.getD "exhausted retries"))) lead found

/-- Answers in input order; a repeated input finds its probe already taken. -/
def reorderProbes : List ObjectId → Probes → List HeaderProbe
  | [], _ => []
  | oid :: rest, found =>
    (found.lookup oid).getD (.error oid (.backend oid "prefetch_headers: missing result")) ::
      reorderProbes rest (found.erase oid)

def prefetchHeaders (oids : List ObjectId) : Prog (GitCli ω) (List HeaderProbe) := do
  if oids.isEmpty then return []
  let (present, toQuery) ← partitionLocal G oids
  let found := insertAll .present present ∅
  let lead ← claim toQuery
  let found ← probeSkipped G lead toQuery found
  let found ← probeLead cat G lead found
  unclaim lead
  return reorderProbes oids found

def GitCliFetcher : Fetcher (Prog (GitCli ω)) :=
  ⟨fetchObject cat G, prefetchHeaders cat G, prefetchHeaders cat G⟩

end
end
end ProjgitGitCli
