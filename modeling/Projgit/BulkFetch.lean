import Projgit.BatchResults
import Projgit.DaemonFetch

/-!
`GitCliFetcher::fetch_objects` under contention (`fetcher/git_cli.rs`). The trait promises that
what it reports `Present` is resident. It is the header prefetch under another name, though: an
id that a concurrent batch has claimed is looked up once and reported `Present` even if that
fails. Everything else that a batch reports as resident is so when it returns, however the
batches interleave.
-/
namespace ProjgitGitCli
open ProjgitStore ProjgitCaches Interleave LabelledRuns
variable {ω α : Type}

inductive BulkCall where
  | fetchObjects (oids : List ObjectId)
  | prefetchHeaders (oids : List ObjectId)
  deriving DecidableEq

section
variable (cat : CatFile ω) (G : Gix ω)

def BulkCall.program : BulkCall → Prog (GitCli ω) (List HeaderProbe)
  | .fetchObjects oids => (GitCliFetcher cat G).fetchObjects oids
  | .prefetchHeaders oids => (GitCliFetcher cat G).prefetchHeaders oids

def arrive (s : GitCli ω) (w : ω) : Option (GitCli ω) := some (s.setWorld w)

def bulkStep : Pool (GitCli ω) BulkCall (List HeaderProbe) → Event BulkCall ω →
    Option (Pool (GitCli ω) BulkCall (List HeaderProbe)) :=
  Pool.step (BulkCall.program cat G) arrive

end

def OnlyGains (resident : ω → ObjectId → Prop) (s : GitCli ω) (w : ω) : Prop :=
  ∀ oid, resident s.store.world oid → resident w oid

/-- The program is at the header look-up of an id that it does not lead. -/
def AboutToSkip (G : Gix ω) (x : Prog (GitCli ω) α) (oid : ObjectId) : Prop :=
  ∃ lead rest found next, oid ∉ lead ∧ x = probeSkipped G lead (oid :: rest) found >>= next

/-- In the course of the run, thread `i` looked up the header of an id that it had left to
    another batch, and the id was not resident then. -/
def SkippedUnlanded (cat : CatFile ω) (G : Gix ω) (resident : ω → ObjectId → Prop)
    (start : Pool (GitCli ω) BulkCall (List HeaderProbe)) (events : List (Event BulkCall ω))
    (i : Nat) (oid : ObjectId) : Prop :=
  ∃ before after mid task x, events = before ++ .advance i :: after ∧
    exec (bulkStep cat G) start before = some mid ∧ mid.threads[i]? = some (task, x) ∧
    AboutToSkip G x oid ∧ ¬ resident mid.shared.store.world oid

section
variable {cat : CatFile ω} {G : Gix ω} {resident : ω → ObjectId → Prop}

theorem arrive_calm (s : GitCli ω) (w : ω) (t : GitCli ω) (gains : OnlyGains resident s w)
    (happened : arrive s w = some t) (vouched : Vouched resident s) :
    Later resident s t ∧ Vouched resident t := by
  cases happened
  exact setWorld_vouched vouched gains

theorem open_vouched (poolSize trees blobBytes perEntry headers : Nat) (w : ω) :
    Vouched resident (GitCli.open poolSize (.withCapacities trees blobBytes perEntry headers w)) :=
  ⟨cached_empty _, ProjgitCoalesce.new_inv, new_earned _⟩

theorem bulk_ensures (sees : G.Sees resident) (keeps : cat.Keeps resident) (call : BulkCall)
    (s : GitCli ω) :
    Ensures (cliDiscipline resident) (call.program cat G) s
      fun probes t => ∀ p ∈ probes, p.carried.isSome → resident t.store.world p.oid := by
  cases call <;> exact prefetchHeaders_ensures sees keeps _ s

/-- A batch that looks up `oid` for another only once it is resident reports it truthfully. -/
theorem bulk_ensuresIf (sees : G.Sees resident) (keeps : cat.Keeps resident) (asked : Prop)
    (oid : ObjectId) (call : BulkCall) (s : GitCli ω) :
    EnsuresIf (cliDiscipline resident)
      (fun x t => asked → AboutToSkip G x oid → resident t.store.world oid)
      (call.program cat G) s
      fun probes t => ∀ p ∈ probes, (asked ∧ p = .present oid) → resident t.store.world p.oid := by
  have reported : ∀ oids, EnsuresIf (cliDiscipline resident)
      (fun x t => asked → AboutToSkip G x oid → resident t.store.world oid)
      (prefetchHeaders cat G oids) s
      fun probes t => ∀ p ∈ probes, (asked ∧ p = .present oid) → resident t.store.world p.oid := by
    intro oids
    apply prefetchHeaders_ensuresIf sees keeps
    · intro other e claimed
      cases claimed.2
    · rintro lead other rest found next t absent permitted ⟨wanted, same⟩
      cases same
      exact permitted wanted ⟨lead, rest, found, next, absent, rfl⟩
  cases call <;> exact reported _

/-- However batches interleave, when `fetch_objects` has returned, an id that it reported
    with a header is resident, and so is one that it reported `Present`, unless it had left
    the id to another batch and looked before that had landed it. -/
theorem bulk_fetch_truthful (sees : G.Sees resident) (keeps : cat.Keeps resident)
    (poolSize trees blobBytes perEntry headers : Nat) (w : ω) (events : List (Event BulkCall ω))
    (p : Pool (GitCli ω) BulkCall (List HeaderProbe))
    (run : exec (bulkStep cat G)
      ⟨GitCli.open poolSize (.withCapacities trees blobBytes perEntry headers w), []⟩ events =
        some p)
    (arrivals : Meets (bulkStep cat G) (Pool.Tame (OnlyGains resident))
      ⟨GitCli.open poolSize (.withCapacities trees blobBytes perEntry headers w), []⟩ events)
    (i : Nat) (oids : List ObjectId) (probes : List HeaderProbe)
    (returned : p.threads[i]? = some (.fetchObjects oids, .ret probes)) :
    (∀ oid kind size, .presentWithHeader oid kind size ∈ probes →
      resident p.shared.store.world oid) ∧
    (∀ oid, .present oid ∈ probes → resident p.shared.store.world oid ∨
      SkippedUnlanded cat G resident
        ⟨GitCli.open poolSize (.withCapacities trees blobBytes perEntry headers w), []⟩
        events i oid) := by
  have start : Vouched resident
      (GitCli.open poolSize (.withCapacities trees blobBytes perEntry headers w)) :=
    open_vouched poolSize trees blobBytes perEntry headers w
  constructor
  · intro oid kind size member
    have sound := Pool.run_sound (fun call s _ => bulk_ensures sees keeps call s) arrive_calm run
      arrivals ⟨start, fun _ _ none => nomatch none⟩
    exact sound.finished (List.mem_of_getElem? returned) _ member rfl
  · intro oid member
    by_contra neither
    obtain ⟨absent, timely⟩ := not_or.mp neither
    -- Without such a look-up every step of thread `i` was permitted, so `oid` has landed.
    have permitted : Meets (bulkStep cat G) (Pool.Permitted (fun j x t => j = i →
        AboutToSkip G x oid → resident t.store.world oid) (OnlyGains resident))
        ⟨GitCli.open poolSize (.withCapacities trees blobBytes perEntry headers w), []⟩ events := by
      refine meets_of_each fun before event after mid split reached => ?_
      cases event with
      | start call => trivial
      | advance j =>
        rintro call x running rfl skips
        by_contra missing
        exact timely ⟨before, after, mid, call, x, split, reached, running, skips, missing⟩
      | outside w' =>
        rw [split] at arrivals
        exact (meets_append reached arrivals).2.1
    have sound := Pool.run_soundIf (fun j call s _ => bulk_ensuresIf sees keeps (j = i) oid call s)
      arrive_calm run permitted ⟨start, fun _ _ _ none => nomatch none⟩
    exact absent (sound.finished returned _ member ⟨rfl, rfl⟩)

end

open ProjgitDaemon (Clone emptyBlob cloneCat cloneGix cloneGix_sees cloneCat_keeps)

def bulkStart : Pool (GitCli Clone) BulkCall (List HeaderProbe) :=
  ⟨GitCli.open 2 (.withCapacities 4 64 64 4 ⟨false, []⟩), []⟩

/-- A bulk fetch claims the blob; another asks for it meanwhile and returns. -/
def contendedRun : List (Event BulkCall Clone) :=
  .start (.fetchObjects [emptyBlob]) :: List.replicate 2 (.advance 0) ++
    .start (.fetchObjects [emptyBlob]) :: List.replicate 5 (.advance 1)

theorem contendedRun_result :
    (exec (bulkStep cloneCat cloneGix) bulkStart contendedRun).map
        (fun p => (p.threads.map Prod.fst, p.outcomes, p.shared.store.world.landed)) =
      some ([.fetchObjects [emptyBlob], .fetchObjects [emptyBlob]],
        [none, some [.present emptyBlob]], false) := by
  decide +kernel

theorem landedRun_result :
    (exec (bulkStep cloneCat cloneGix) bulkStart
        (contendedRun ++ List.replicate 11 (.advance 0))).map
        (fun p => (p.threads.map Prod.fst, p.outcomes)) =
      some ([.fetchObjects [emptyBlob], .fetchObjects [emptyBlob]],
        [some [.presentWithHeader emptyBlob .blob 0],
          some [.present emptyBlob]]) := by
  decide +kernel

theorem no_incident {resident : Clone → ObjectId → Prop} (more : Nat) :
    Meets (bulkStep cloneCat cloneGix) (Pool.Tame (OnlyGains resident))
      bulkStart (contendedRun ++ List.replicate more (.advance 0)) :=
  Pool.tame_of_forall (by simp [contendedRun]) bulkStart

theorem claimed_id_reported_early : ¬ ∀ (events : List (Event BulkCall Clone)) p,
    exec (bulkStep cloneCat cloneGix) bulkStart events = some p →
    Meets (bulkStep cloneCat cloneGix)
      (Pool.Tame (OnlyGains Clone.resident)) bulkStart events →
    ∀ (i : Nat) oids probes, p.threads[i]? = some (.fetchObjects oids, .ret probes) →
      ∀ probe ∈ probes, probe.saysResident →
        Clone.resident p.shared.store.world probe.oid := by
  intro truthful
  obtain ⟨p, run, result⟩ := Option.map_eq_some_iff.mp contendedRun_result
  obtain ⟨calls, outcomes, landed⟩ := by simpa only [Prod.mk.injEq] using result
  have returned := Pool.returned_of_calls (i := 1) (by rw [calls]; rfl) (by rw [outcomes]; rfl)
  have here := truthful contendedRun p run (by simpa using no_incident 0) 1 _ _ returned _
    (List.mem_singleton.mpr rfl) rfl
  rw [here.1] at landed
  cases landed

theorem contended_batch_lands :
    ∃ p, exec (bulkStep cloneCat cloneGix) bulkStart
        (contendedRun ++ List.replicate 11 (.advance 0)) = some p ∧
      Clone.resident p.shared.store.world emptyBlob := by
  obtain ⟨p, run, result⟩ := Option.map_eq_some_iff.mp landedRun_result
  obtain ⟨calls, outcomes⟩ := by simpa only [Prod.mk.injEq] using result
  have returned := Pool.returned_of_calls (i := 0) (by rw [calls]; rfl) (by rw [outcomes]; rfl)
  refine ⟨p, run, (bulk_fetch_truthful cloneGix_sees cloneCat_keeps
    2 4 64 64 4 ⟨false, []⟩ _ p run (no_incident 11) 0 _ _ returned).1 _ .blob 0 ?_⟩
  exact List.mem_singleton.mpr rfl

end ProjgitGitCli
