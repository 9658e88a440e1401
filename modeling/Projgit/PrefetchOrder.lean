import Mathlib.Data.List.Induction
import Projgit.PrefetchRuns

/-!
The order of the prefetch queue as the store sees it. The worker runs on a store that enters in
a log every call that is made on it, so that what was asked for is what the store was asked for.
-/
namespace ProjgitPrefetch
open ProjgitStore ProjgitFs LabelledRuns Interleave
variable {σ ε : Type}

inductive StoreCall where
  | prefetchHeaders (oids : List ObjectId)
  | header (oid : ObjectId)
  | fetchObjects (oids : List ObjectId)
  deriving DecidableEq

/-- The same store with a log of the calls on it. -/
def StoreCalls.logged (C : StoreCalls σ) : StoreCalls (σ × List StoreCall) where
  prefetchHeaders oids := (C.prefetchHeaders oids).noting (.prefetchHeaders oids)
  header oid := (C.header oid).noting (.header oid)
  fetchObjects oids := (C.fetchObjects oids).noting (.fetchObjects oids)

def beside (outside : σ → ε → Option σ) (s : σ × List StoreCall) (e : ε) :
    Option (σ × List StoreCall) :=
  (outside s.1 e).map fun t => (t, s.2)

def askedFor (log : List StoreCall) : List (List ObjectId) :=
  log.flatMap fun | .prefetchHeaders oids => [oids] | _ => []

def lookedUp (log : List StoreCall) : List ObjectId :=
  log.flatMap fun | .header oid => [oid] | _ => []

def WorkerLoop.resting : WorkerLoop σ → Bool
  | .receiving | .exited => true
  | _ => false

def Deed.calls : Deed → List StoreCall
  | .asked chunk => [.prefetchHeaders chunk]
  | .weighed chunk => chunk.map .header
  | .fetched keep => [.fetchObjects keep]
  | _ => []

/-- What the call under way has yet to enter. -/
def WorkerLoop.Owes : WorkerLoop (σ × List StoreCall) → List StoreCall → Prop
  | .probing _ call _, rest | .fetching _ call _, rest => call.Enters rest
  | .weighing _ call _, rest => call.Enters rest
  | .adding _ next, rest => next.Owes rest
  | _, rest => rest = []

/-- The store was called as the worker set out to, up to the call under way or a crash in it. -/
structure Called (calls : List StoreCall) (s : Prefetch (σ × List StoreCall)) : Prop where
  entered : ∃ rest, s.store.2 ++ rest = calls ∧ (s.worker ≠ .panicked → s.worker.Owes rest)

section
variable {C : StoreCalls σ} {blobPrefetch : Bool} {cap : Nat} {outside : σ → ε → Option σ}
  {s t : Prefetch (σ × List StoreCall)} {calls : List StoreCall}

theorem weighing_enters (C : StoreCalls σ) (cap : Nat) (chunk : List ObjectId) :
    (blobsUnderCap C.logged cap chunk).Enters (chunk.map StoreCall.header) := by
  induction chunk with
  | nil => exact rfl
  | cons oid rest ih =>
    refine (enters_noting (StoreCall.header oid) (C.header oid)).bind fun header => ?_
    have later : ∀ f : List ObjectId × Nat → List ObjectId × Nat,
        (blobsUnderCap C.logged cap rest >>= fun more => pure (f more)).Enters
          (rest.map StoreCall.header ++ []) := fun f => ih.bind fun _ => rfl
    rw [List.append_nil] at later
    exact later _

theorem Works.called {seen : Option Deed} (works : Works C.logged cap s seen t)
    (called : Called calls s) : Called (calls ++ seen.elim [] Deed.calls) t := by
  obtain ⟨rest, log, owes⟩ := called.entered
  have owes := owes works.running
  have grown : calls = calls ++ [] := (List.append_nil calls).symm
  cases works with
  | @received task left at_ next =>
    rw [at_] at owes
    exact ⟨rest, log.trans grown, fun _ => by cases task <;> exact owes⟩
  | asked at_ =>
    rw [at_] at owes
    cases owes
    exact ⟨_, by rw [← log, List.append_nil]; rfl, fun _ => enters_noting _ _⟩
  | weighed at_ =>
    rw [at_] at owes
    cases owes
    exact ⟨_, by rw [← log, List.append_nil]; rfl, fun _ => weighing_enters C cap _⟩
  | kept at_ some_ =>
    rw [at_] at owes
    cases owes
    exact ⟨_, by rw [← log, List.append_nil]; rfl, fun _ => enters_noting _ _⟩
  | probing at_ moved | weighing at_ moved | fetching at_ moved =>
    rw [at_] at owes
    obtain ⟨now, later, rfl, does, goes⟩ := owes
    refine ⟨later, ?_, fun _ => goes _⟩
    rw [does _ _ _ moved, List.append_assoc, log]
    exact grown
  | _ at_ =>
    rw [at_] at owes
    exact ⟨rest, log.trans grown, fun _ => owes⟩

theorem Called.of_same (called : Called calls s) (log : t.store.2 = s.store.2)
    (worker : t.worker = s.worker) : Called (calls ++ []) t := by
  obtain ⟨rest, entered, owes⟩ := called.entered
  refine ⟨rest, ?_, by rwa [worker]⟩
  rw [log, entered, List.append_nil]

theorem step_called {a : Action ε}
    (moved : step C.logged blobPrefetch cap (beside outside) s a = some t)
    (called : Called calls s) : Called (calls ++ (deed s a).elim [] Deed.calls) t := by
  cases a with
  | post oids =>
    simp only [step] at moved
    split at moved <;> cases moved
    exact called.of_same rfl rfl
  | trySend i =>
    obtain ⟨task, rest, found, ⟨shown, -, -, rfl⟩ | ⟨shown, rfl⟩⟩ := trySend_cases (ε := ε) moved
    · rw [shown]
      exact called.of_same rfl rfl
    · rw [shown]
      exact called.of_same rfl rfl
  | count i =>
    obtain ⟨sent, rest, found, rfl⟩ := count_cases moved
    exact called.of_same rfl rfl
  | work => exact (work_cases moved).called called
  | panic =>
    obtain rfl := panic_cases moved
    obtain ⟨rest, entered, -⟩ := called.entered
    exact ⟨rest, entered.trans (List.append_nil _).symm, fun running => absurd rfl running⟩
  | close =>
    simp only [step] at moved
    split at moved <;> cases moved
    exact called.of_same rfl rfl
  | join =>
    simp only [step] at moved
    split at moved <;> cases moved
    exact called.of_same rfl rfl
  | outside e =>
    obtain ⟨store, ran, rfl⟩ := Option.map_eq_some_iff.mp moved
    obtain ⟨inner, -, rfl⟩ := Option.map_eq_some_iff.mp ran
    exact called.of_same rfl rfl

theorem run_called {store : σ} {acts : List (Action ε)}
    (run : exec (step C.logged blobPrefetch cap (beside outside)) (.spawn (store, [])) acts =
      some s) :
    Called ((seen (step C.logged blobPrefetch cap (beside outside)) deed (.spawn (store, []))
      acts).flatMap Deed.calls) s := by
  have keeps : ∀ log u a v, step C.logged blobPrefetch cap (beside outside) u a = some v →
      Called (log.flatMap Deed.calls) u →
      Called ((log ++ (deed u a).toList).flatMap Deed.calls) v := by
    intro log u a v moved called
    have later := step_called moved called
    rw [List.flatMap_append]
    cases shown : deed u a <;> simpa [shown] using later
  exact exec_keeps_seen keeps run ⟨[], rfl, fun _ => rfl⟩

theorem askedFor_append (first rest : List StoreCall) :
    askedFor (first ++ rest) = askedFor first ++ askedFor rest := List.flatMap_append

theorem lookedUp_append (first rest : List StoreCall) :
    lookedUp (first ++ rest) = lookedUp first ++ lookedUp rest := List.flatMap_append

theorem lookups_only (chunk : List ObjectId) :
    askedFor (chunk.map StoreCall.header) = [] ∧ lookedUp (chunk.map StoreCall.header) = chunk := by
  induction chunk with
  | nil => exact ⟨rfl, rfl⟩
  | cons oid rest ih => exact ⟨ih.1, congrArg (oid :: ·) ih.2⟩

theorem history_calls (log : List Deed) :
    (History.of log).asked = askedFor (log.flatMap Deed.calls) ∧
      (History.of log).weighed.flatten = lookedUp (log.flatMap Deed.calls) := by
  induction log using List.reverseRecOn with
  | nil => exact ⟨rfl, rfl⟩
  | append_singleton log d ih =>
    obtain ⟨asked, weighed⟩ := ih
    have last : History.of (log ++ [d]) = (History.of log).add d := by simp [History.of]
    rw [last, List.flatMap_append, askedFor_append, lookedUp_append, ← asked, ← weighed,
      List.flatMap_singleton]
    cases d with
    | weighed chunk =>
      obtain ⟨none_, all⟩ := lookups_only chunk
      simp [History.add, Deed.calls, none_, all]
    | _ => simp [History.add, Deed.calls, askedFor, lookedUp]

theorem Owes.none {worker : WorkerLoop (σ × List StoreCall)} {rest : List StoreCall}
    (owes : worker.Owes rest) (resting : worker.resting = true) : rest = [] := by
  cases worker <;> first | exact owes | cases resting

/-- In every run on a store that logs the calls on it: the channel is bounded, the worker takes
    the tasks in the order in which `try_send` accepted them, and has the store fetch the headers
    of each id of the header tasks once, in order and in batches of at most 64, and look up each
    id of the blob tasks once and in order; whenever it rests, of all tasks it has taken. Only a
    crash of the worker loses any. -/
theorem prefetch_is_in_order {store : σ} {acts : List (Action ε)}
    (run : exec (step C.logged blobPrefetch cap (beside outside)) (.spawn (store, [])) acts =
      some s) :
    let h := history C.logged blobPrefetch cap (beside outside) (store, []) acts
    s.channel.length ≤ 256 ∧
    (∀ batch ∈ askedFor s.store.2, batch ≠ [] ∧ batch.length ≤ 64) ∧
    h.taken <+: h.accepted ∧ (askedFor s.store.2).flatten <+: headerOids h.taken ∧
    lookedUp s.store.2 <+: blobOids h.taken ∧
    (s.worker.resting = true → (askedFor s.store.2).flatten = headerOids h.taken ∧
      lookedUp s.store.2 = blobOids h.taken) ∧
    (s.worker ≠ .panicked → h.accepted = h.taken ++ s.channel) := by
  intro h
  obtain ⟨bounded, tasks, headers, blobs, sized⟩ : InOrder h s := run_inOrder run
  obtain ⟨rest, entered, owes⟩ := (run_called run).entered
  obtain ⟨asked, weighed⟩ := history_calls
    (seen (step C.logged blobPrefetch cap (beside outside)) deed (.spawn (store, [])) acts)
  change h.asked = _ at asked
  change h.weighed.flatten = _ at weighed
  rw [← entered, askedFor_append] at asked
  rw [← entered, lookedUp_append] at weighed
  refine ⟨bounded, fun batch inside => sized batch ?_, ?_, ?_, ?_, fun resting => ?_,
    fun running => tasks.exact running⟩
  · rw [asked]
    simp [inside]
  · obtain ⟨lost, whole, -⟩ := tasks
    exact ⟨s.channel ++ lost, by rw [whole, List.append_assoc]⟩
  · obtain ⟨lost, whole, -⟩ := headers
    rw [whole, asked, List.flatten_append, List.append_assoc, List.append_assoc]
    exact List.prefix_append _ _
  · obtain ⟨lost, whole, -⟩ := blobs
    rw [whole, weighed, List.append_assoc, List.append_assoc]
    exact List.prefix_append _ _
  · have running : s.worker ≠ .panicked := by
      intro gone
      rw [gone] at resting
      cases resting
    have nothing := Owes.none (owes running) resting
    subst nothing
    have headers := headers.exact running
    have blobs := blobs.exact running
    rw [asked] at headers
    rw [weighed] at blobs
    constructor
    · rw [headers]
      cases at_ : s.worker <;>
        simp [at_, WorkerLoop.resting, WorkerLoop.toAsk, askedFor] at resting ⊢
    · rw [blobs]
      cases at_ : s.worker <;>
        simp [at_, WorkerLoop.resting, WorkerLoop.toWeigh, lookedUp] at resting ⊢

end

def loggedStep : Prefetch (Store Unit × List StoreCall) → Action Empty →
    Option (Prefetch (Store Unit × List StoreCall)) :=
  step (storeCalls emptyStore).logged true 100 (beside noEvents)

/-- The same listing, drained by the worker: both tasks come to the store. -/
def drainLogged : List (Action Empty) := postAndDrop ++ List.replicate 30 .work

theorem drainLogged_result :
    (exec loggedStep (.spawn (noCaches, [])) drainLogged).map
      (fun s => (s.worker.resting, s.store.2)) = some (true, [.prefetchHeaders [smallBlob],
        .header smallBlob, .fetchObjects [smallBlob]]) := by
  decide +kernel

theorem queued_tasks_are_covered :
    ∃ s, exec loggedStep (.spawn (noCaches, [])) drainLogged = some s ∧
      headerOids (history (storeCalls emptyStore).logged true 100 (beside noEvents)
        (noCaches, []) drainLogged).taken = [smallBlob] ∧
      blobOids (history (storeCalls emptyStore).logged true 100 (beside noEvents)
        (noCaches, []) drainLogged).taken = [smallBlob] := by
  obtain ⟨s, run, shape⟩ := Option.map_eq_some_iff.mp drainLogged_result
  obtain ⟨resting, log⟩ := Prod.mk.inj shape
  obtain ⟨asked, looked⟩ := (prefetch_is_in_order run).2.2.2.2.2.1 resting
  refine ⟨s, run, ?_, ?_⟩
  · rw [← asked, log]
    rfl
  · rw [← looked, log]
    rfl

end ProjgitPrefetch
