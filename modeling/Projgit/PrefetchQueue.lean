import Projgit.ProjectionFs
import Projgit.Lib.Interleave

/-!
`PrefetchHandle` and its worker (`prefetch.rs`) as threads. One step is one channel operation,
one `fetch_add` or one action of a call on the store; whatever else uses the store acts in
between. The worker may panic inside a call, which disconnects the channel.
-/
namespace ProjgitPrefetch
open ProjgitStore ProjgitFs LabelledRuns Interleave

inductive Counter where
  | posted | dropped | batchesSent | oidsResolved | headersPublished | oidsFailed
  | blobsWarmed | blobsSkipped
  deriving DecidableEq

/-- Where a thread stands in `post_prefetch`: about to `try_send` the first task, or about to
    count whether one was sent. -/
inductive Poster where
  | sending (tasks : List PrefetchTask)
  | counting (sent : Bool) (rest : List PrefetchTask)

def Poster.returned : Poster → Bool
  | .sending [] => true
  | _ => false

/-- Where the worker stands in `worker_loop`. `adding` holds the `fetch_add`s to come. -/
inductive WorkerLoop (σ : Type) where
  | receiving
  | headers (left : List (List ObjectId))
  | probing (chunk : List ObjectId) (call : Prog σ (List HeaderProbe))
      (left : List (List ObjectId))
  | blobs (left : List (List ObjectId))
  | weighing (chunk : List ObjectId) (call : Prog σ (List ObjectId × Nat))
      (left : List (List ObjectId))
  | fetching (keep : List ObjectId) (call : Prog σ (List HeaderProbe))
      (left : List (List ObjectId))
  | adding (sums : List (Counter × Nat)) (next : WorkerLoop σ)
  | exited
  | panicked

/-- `open` until `drop` has closed the channel; `joined` when `drop` has returned. -/
inductive Handle where
  | opened | closed | joined
  deriving DecidableEq

structure Prefetch (σ : Type) where
  handle : Handle
  channel : List PrefetchTask
  stats : Counter → UInt64
  posters : List Poster
  worker : WorkerLoop σ
  store : σ

inductive Action (ε : Type) where
  | post (oids : List ObjectId)
  | trySend (poster : Nat)
  | count (poster : Nat)
  | work
  | panic
  | close
  | join
  | outside (event : ε)

variable {σ ε : Type}

def Prefetch.spawn (store : σ) : Prefetch σ :=
  ⟨.opened, [], fun _ => 0, [], .receiving, store⟩

def Prefetch.fetchAdd (s : Prefetch σ) (counter : Counter) (n : Nat) : Prefetch σ :=
  { s with stats := Function.update s.stats counter (s.stats counter + UInt64.ofNat n) }

def Prefetch.setPoster (s : Prefetch σ) (i : Nat) (poster : Poster) : Prefetch σ :=
  { s with posters := s.posters.set i poster }

def WorkerLoop.gone : WorkerLoop σ → Bool
  | .exited | .panicked => true
  | _ => false

def tasksOf (blobPrefetch : Bool) (oids : List ObjectId) : List PrefetchTask :=
  if oids.isEmpty then []
  else if blobPrefetch then [.headers oids, .blobs oids]
  else [.headers oids]

def probeSum : HeaderProbe → List (Counter × Nat)
  | .presentWithHeader _ _ _ | .headerOnly _ _ _ => [(.headersPublished, 1)]
  | .present _ => []
  | .error _ _ => [(.oidsFailed, 1)]

def probeSums (probes : List HeaderProbe) : List (Counter × Nat) :=
  (.batchesSent, 1) :: (.oidsResolved, probes.length) :: probes.flatMap probeSum

def HeaderProbe.failed : HeaderProbe → Bool
  | .error _ _ => true
  | _ => false

def fetchSums (probes : List HeaderProbe) : List (Counter × Nat) :=
  [(.batchesSent, 1), (.blobsWarmed, probes.countP fun p => !HeaderProbe.failed p)]

/-- What the worker calls on the hydrating store, and on the bare store below it. -/
structure StoreCalls (σ : Type) where
  prefetchHeaders : List ObjectId → Prog σ (List HeaderProbe)
  header : ObjectId → Prog σ (Except ObjectStoreError (ObjectKind × Nat))
  fetchObjects : List ObjectId → Prog σ (List HeaderProbe)

def storeCalls (H : HydratingObjectStore (Prog σ)) : StoreCalls σ :=
  ⟨H.prefetchHeaders, fun oid => (H.store.header oid).run, H.fetchObjects⟩

/-- `blobs_under_cap`: what to keep, and how many are skipped. -/
def blobsUnderCap (C : StoreCalls σ) (cap : Nat) : List ObjectId → Prog σ (List ObjectId × Nat)
  | [] => return ([], 0)
  | oid :: rest => do
    let header ← C.header oid
    let keep := match header with
      | .ok (.blob, size) => decide (size ≤ cap)
      | _ => false
    let more ← blobsUnderCap C cap rest
    return if keep then (oid :: more.1, more.2) else (more.1, more.2 + 1)

section
variable (C : StoreCalls σ) (blobPrefetch : Bool) (cap : Nat)
  (outside : σ → ε → Option σ)

/-- The loop over `oids.chunks(MAX_BATCH)`. -/
def WorkerLoop.start : PrefetchTask → WorkerLoop σ
  | .headers oids => .headers (Worker.chunks oids.length oids)
  | .blobs oids => .blobs (Worker.chunks oids.length oids)

def trySend (s : Prefetch σ) (i : Nat) : Option (Prefetch σ) :=
  match s.posters[i]? with
  | some (.sending (task :: rest)) =>
    if s.worker.gone then some (s.setPoster i (.counting false rest))
    else if s.channel.length < channelCapacity then
      some { s.setPoster i (.counting true rest) with channel := s.channel ++ [task] }
    else some (s.setPoster i (.counting false rest))
  | _ => none

def count (s : Prefetch σ) (i : Nat) : Option (Prefetch σ) :=
  match s.posters[i]? with
  | some (.counting sent rest) =>
    let counter := if sent then Counter.posted else .dropped
    some ((s.fetchAdd counter 1).setPoster i (.sending rest))
  | _ => none

def work (s : Prefetch σ) : Option (Prefetch σ) :=
  match s.worker with
  | .receiving =>
    match s.channel with
    | task :: rest => some { s with channel := rest, worker := .start task }
    -- `recv` fails once the channel is empty and the sender is gone.
    | [] => if s.handle = .opened then none else some { s with worker := .exited }
  | .headers [] | .blobs [] => some { s with worker := .receiving }
  | .headers (chunk :: left) =>
    some { s with worker := .probing chunk (C.prefetchHeaders chunk) left }
  | .probing _ (.ret probes) left =>
    some { s with worker := .adding (probeSums probes) (.headers left) }
  | .probing chunk (.atom act next) left =>
    (act s.store).map fun r => { s with worker := .probing chunk (next r.1) left, store := r.2 }
  | .blobs (chunk :: left) =>
    some { s with worker := .weighing chunk (blobsUnderCap C cap chunk) left }
  | .weighing _ (.ret (keep, skipped)) left =>
    let next := if keep.isEmpty then .blobs left else .fetching keep (C.fetchObjects keep) left
    some { s with worker := .adding [(.blobsSkipped, skipped)] next }
  | .weighing chunk (.atom act next) left =>
    (act s.store).map fun r => { s with worker := .weighing chunk (next r.1) left, store := r.2 }
  | .fetching _ (.ret probes) left =>
    some { s with worker := .adding (fetchSums probes) (.blobs left) }
  | .fetching keep (.atom act next) left =>
    (act s.store).map fun r => { s with worker := .fetching keep (next r.1) left, store := r.2 }
  | .adding [] next => some { s with worker := next }
  | .adding ((counter, n) :: sums) next =>
    some { s.fetchAdd counter n with worker := .adding sums next }
  | .exited | .panicked => none

/-- A panic in a call on the store unwinds the worker and drops the receiver. -/
def panic (s : Prefetch σ) : Option (Prefetch σ) :=
  match s.worker with
  | .probing _ _ _ | .weighing _ _ _ | .fetching _ _ _ =>
    some { s with worker := .panicked, channel := [] }
  | _ => none

def step (s : Prefetch σ) : Action ε → Option (Prefetch σ)
  | .post oids =>
    if s.handle = .opened then
      some { s with posters := s.posters ++ [.sending (tasksOf blobPrefetch oids)] }
    else none
  | .trySend i => trySend s i
  | .count i => count s i
  | .work => work C cap s
  | .panic => panic s
  -- `drop` has the handle to itself.
  | .close =>
    if s.handle = .opened ∧ s.posters.all Poster.returned then
      some { s with handle := .closed }
    else none
  | .join =>
    if s.handle = .closed ∧ s.worker.gone then some { s with handle := .joined } else none
  | .outside e => (outside s.store e).map fun store => { s with store := store }

end
end ProjgitPrefetch
