import Projgit.ChildLedger
import Projgit.DaemonFetch

/-!
The children of the pool stay in step (`fetcher/git_cli.rs`). `raw_fetch` and
`prefetch_headers` take a slot, talk to its child and let go of it only when the child owes
nothing or is gone, whatever the pipes do. So a line that a call parses is the answer to the
line that the call wrote for that id.
-/
namespace ProjgitGitCli
open ProjgitStore Interleave LabelledRuns
variable {ω α : Type}

/-- Every line read begins with the id that it answers. -/
def ChildLog.Echoes (log : ChildLog) : Prop :=
  ∀ (k : Nat) asked line, log.written[k]? = some asked → log.read[k]? = some line →
    eqIgnoreAsciiCase (cutAtSpace (BatchChild.stripNewline line).toList).1 asked.toList

def GitCli.Echoes (s : GitCli (Ledger ω)) : Prop := ∀ c log, s.logOf c = some log → log.Echoes

/-- The error of a call that parsed the answer to another id. -/
def Mismatch (debug : String → String) (e : FetcherError) : Prop :=
  ∃ oid line, e = .backend oid ("git cat-file --batch-check echoed unexpected sha: " ++ debug line)

theorem GitCli.Echoes.before {s t : GitCli (Ledger ω)} (echoes : t.Echoes) (grow : LogsGrow s t) :
    s.Echoes := by
  intro c log found k asked line written read
  obtain ⟨log', found', written', read'⟩ := grow c log found
  exact echoes c log' found' k asked line (getElem?_of_grows written' written)
    (getElem?_of_grows read' read)

theorem AnswerTo.echo {s : GitCli (Ledger ω)} {oid : ObjectId} {line : String}
    (answer : AnswerTo s oid line) (echoes : s.Echoes) :
    eqIgnoreAsciiCase (cutAtSpace line.toList).1 oid.toHex.toList := by
  obtain ⟨raw, rfl, c, log, found, k, written, read⟩ := answer
  exact echoes c log found k _ raw written read

theorem append_ne {a b : String} (k : Nat) (inA : k < a.toList.length) (inB : k < b.toList.length)
    (differ : a.toList[k]? ≠ b.toList[k]?) (x y : String) : a ++ x ≠ b ++ y := by
  intro same
  have lists := congrArg String.toList same
  rw [String.toList_append, String.toList_append] at lists
  have chars := congrArg (fun l => l[k]?) lists
  rw [List.getElem?_append_left inA, List.getElem?_append_left inB] at chars
  exact differ chars

theorem not_mismatch {debug : String → String} {a : String} (k : Nat) (inA : k < a.toList.length)
    (inB : k < "git cat-file --batch-check echoed unexpected sha: ".toList.length)
    (differ : a.toList[k]? ≠ "git cat-file --batch-check echoed unexpected sha: ".toList[k]?)
    (oid : ObjectId) (x : String) : ¬ Mismatch debug (.backend oid (a ++ x)) := by
  rintro ⟨other, line, same⟩
  exact append_ne k inA inB differ x _ (FetcherError.backend.inj same).2

theorem access_leaves (G : Gix ω) {f : Store ω → α × Store ω}
    (world : ∀ s, (f s).2.world = s.world) :
    Leaves Store.world (G.access f : Prog (Store ω) α) := by
  refine leaves_await fun s a t ran => ?_
  have same : f s = (a, t) := Option.some.inj ran
  have kept := world s
  rwa [same] at kept

theorem storeHeader_leaves (G : Gix ω) (oid : ObjectId) :
    Leaves Store.world ((ObjectStore.header G oid).run : Prog (Store ω) _) := by
  unfold ObjectStore.header
  refine (access_leaves G fun _ => rfl).runLift fun hit => ?_
  cases hit with
  | some found => exact leaves_pure _
  | none =>
    refine (access_leaves G fun _ => rfl).runLift fun _ => ?_
    have asked : Leaves Store.world (G.ask (G.tryFindHeader · oid) :
        ExceptT ObjectStoreError (Prog (Store ω)) _).run :=
      access_leaves G fun _ => rfl
    refine asked.runBind fun found => ?_
    cases found with
    | none => exact leaves_pure _
    | some h => exact (access_leaves G fun _ => rfl).runLift fun _ => leaves_pure _

section
variable {s t : GitCli (Ledger ω)} {cat : CatFile ω} {G : Gix (Ledger ω)}

/-- A line that echoes its id is not mistaken for another's. -/
theorem parseLine_echoed {oid : ObjectId} {line : String} {e : FetcherError}
    (echo : eqIgnoreAsciiCase (cutAtSpace line.toList).1 oid.toHex.toList)
    (parsed : parseLine cat.ledgered oid line = .error e) : ¬ Mismatch cat.debug e := by
  unfold parseLine at parsed
  simp only [echo, Bool.not_true, Bool.false_eq_true, if_false] at parsed
  split at parsed
  · split at parsed
    · cases parsed
    · cases parsed
      exact not_mismatch 26 (by decide) (by decide) (by decide) oid _
  · rcases ite_eq_iff.mp parsed with ⟨-, same⟩ | ⟨-, same⟩
    · cases same
    · rw [String.append_assoc, String.append_assoc] at same
      cases same
      exact not_mismatch 26 (by decide) (by decide) (by decide) oid _

theorem store_leaves {x : Prog (Store (Ledger ω)) α} (leaves : Leaves Store.world x) :
    Leaves GitCli.pipes (x.zoom GitCli.store GitCli.setStore) := by
  refine leaves.zoom fun t s same => ?_
  simp [GitCli.pipes, GitCli.setStore, same]

theorem contains_leaves (oid : ObjectId) :
    Leaves GitCli.pipes ((theStore G).contains oid) :=
  store_leaves (access_leaves G fun _ => rfl)

theorem header_leaves (oid : ObjectId) :
    Leaves GitCli.pipes ((theStore G).header oid).run :=
  store_leaves (storeHeader_leaves G oid)

/-- A call that is done holds nothing, and it reports a mismatch only if some child failed
    to echo. -/
def Sorted (cat : CatFile ω) (e : FetcherError) (t : GitCli (Ledger ω)) : Prop :=
  Mismatch cat.debug e → ¬ t.Echoes

theorem Sorted.later {e : FetcherError} (sorted : Sorted cat e s) (grow : LogsGrow s t) :
    Sorted cat e t :=
  fun mismatch echoes => sorted mismatch (echoes.before grow)

theorem classify_secures (oid : ObjectId) (line : String) (s : GitCli (Ledger ω))
    (answer : AnswerTo s oid line) :
    Secures (catCustody ω) (classify cat.ledgered G oid line).run .nothing s
      fun r held t => held = .nothing ∧ ∀ e, r = .error e → Sorted cat e t := by
  unfold classify
  have parsed : Secures (catCustody ω) (ExceptT.mk (pure (parseLine cat.ledgered oid line)) :
      ExceptT FetcherError (Prog (GitCli (Ledger ω))) ParsedResponse).run .nothing s
      fun r held _ => held = .nothing ∧ r = parseLine cat.ledgered oid line :=
    secures_ret fun _ _ => ⟨rfl, rfl⟩
  refine parsed.runBind ?_ ?_
  · rintro e held t - grow ⟨rfl, same⟩
    refine ⟨rfl, fun e' same' mismatch echoes => ?_⟩
    cases same'
    exact parseLine_echoed ((answer.later grow).echo echoes) same.symm mismatch
  · rintro (⟨kind, size⟩ | _) held t - - ⟨rfl, -⟩
    · apply (secures_of_leaves catCustody_seen (contains_leaves oid)).runLift
      rintro found held u - - ⟨rfl, -⟩
      split
      · exact secures_ret fun _ _ => ⟨rfl, nofun⟩
      · refine secures_ret fun _ _ => ⟨rfl, fun e same mismatch => ?_⟩
        cases same
        obtain ⟨_, _, impossible⟩ := mismatch
        cases impossible
    · refine secures_ret fun _ _ => ⟨rfl, fun e same mismatch => ?_⟩
      cases same
      obtain ⟨_, _, impossible⟩ := mismatch
      cases impossible

theorem rawFetchFrom_secures (oid : ObjectId) (attempts : Nat) (lastIoErr : Option String)
    (s : GitCli (Ledger ω)) :
    Secures (catCustody ω) (rawFetchFrom cat.ledgered G oid attempts lastIoErr).run .nothing s
      fun r held t => held = .nothing ∧ ∀ e, r = .error e → Sorted cat e t := by
  induction attempts generalizing lastIoErr s with
  | zero =>
    refine secures_ret fun _ _ => ⟨rfl, fun e same mismatch => ?_⟩
    cases same
    obtain ⟨_, _, impossible⟩ := mismatch
    cases impossible
  | succ attempts ih =>
    apply (BatchChildPool.acquire_secures s).runLift
    rintro slot held t - - ⟨rfl, ready⟩
    apply (secures_of_leaves catCustody_seen (contains_leaves oid)).runLift
    rintro found held u - - ⟨rfl, later⟩
    split
    · apply (BatchChildPool.release_secures u (ready.later later)).runLift
      rintro - held v - - rfl
      exact secures_ret fun _ _ => ⟨rfl, nofun⟩
    · apply (BatchChildPool.withChild_secures (BatchChild.query_secures oid) u
        (ready.later later)).runLift
      rintro (spawnErr | e | line) held v - - ⟨rfl, given⟩
      · apply (BatchChildPool.release_secures v given).runLift
        rintro - held x - - rfl
        refine secures_ret fun _ _ => ⟨rfl, fun e same mismatch => ?_⟩
        cases same
        exact absurd mismatch (not_mismatch 0 (by decide) (by decide) (by decide) oid _)
      · apply (BatchChildPool.reset_secures v).runLift
        rintro - held x - - ⟨rfl, emptied⟩
        apply (BatchChildPool.release_secures x emptied).runLift
        rintro - held y - - rfl
        exact ih (some e) y
      · apply (BatchChildPool.release_secures v given.1).runLift
        rintro - held x - onward rfl
        exact classify_secures oid line x (given.2.later onward)

theorem askBatch_secures (lead : List ObjectId) (attempts : Nat) (lastIoErr : Option String)
    (s : GitCli (Ledger ω)) :
    Secures (catCustody ω) (askBatch cat.ledgered lead attempts lastIoErr) .nothing s
      fun outcome held t => held = .nothing ∧ ∀ lines, outcome = .lines lines →
        List.Forall₂ (AnswerTo t) lead lines := by
  induction attempts generalizing lastIoErr s with
  | zero => exact secures_ret fun _ _ => ⟨rfl, nofun⟩
  | succ attempts ih =>
    apply (BatchChildPool.acquire_secures s).bind
    rintro slot held t - - ⟨rfl, ready⟩
    apply (BatchChildPool.withChild_secures (BatchChild.queryBatch_secures lead) t ready).bind
    rintro (spawnErr | e | lines) held u - - ⟨rfl, given⟩
    · apply (BatchChildPool.release_secures u given).bind
      rintro - held v - - rfl
      exact secures_ret fun _ _ => ⟨rfl, nofun⟩
    · apply (BatchChildPool.reset_secures u).bind
      rintro - held v - - ⟨rfl, emptied⟩
      apply (BatchChildPool.release_secures v emptied).bind
      rintro - held x - - rfl
      exact ih (some e) x
    · apply (BatchChildPool.release_secures u given.1).bind
      rintro - held v - onward rfl
      refine secures_ret fun x next => ⟨rfl, fun lines' same => ?_⟩
      cases same
      exact given.2.imp fun _ _ each => (each.later onward).later next.onward

def MismatchProbe (debug : String → String) (p : HeaderProbe) : Prop :=
  ∃ oid e, p = .error oid e ∧ Mismatch debug e

abbrev SortedProbes (cat : CatFile ω) (found : Probes) (t : GitCli (Ledger ω)) : Prop :=
  Backed (MismatchProbe cat.debug) (fun _ => ¬ t.Echoes) found

theorem SortedProbes.later {found : Probes} (sorted : SortedProbes cat found s)
    (grow : LogsGrow s t) : SortedProbes cat found t :=
  sorted.mono fun _ silent echoes => silent (echoes.before grow)

theorem not_mismatchProbe {debug : String → String} {oid : ObjectId} {e : FetcherError}
    (fine : ¬ Mismatch debug e) : ¬ MismatchProbe debug (.error oid e) := by
  rintro ⟨_, _, same, mismatch⟩
  cases same
  exact fine mismatch

theorem partitionLocal_leaves (oids : List ObjectId) :
    Leaves GitCli.pipes (partitionLocal G oids) := by
  induction oids with
  | nil => exact leaves_pure _
  | cons oid rest ih => exact (contains_leaves oid).bind fun _ => ih.bind fun _ => leaves_pure _

theorem claim_leaves (toQuery : List ObjectId) :
    Leaves GitCli.pipes (claim toQuery : Prog (GitCli (Ledger ω)) (List ObjectId)) := by
  refine leaves_await fun s a t ran => ?_
  cases ran
  rfl

theorem probeSkipped_secures (lead oids : List ObjectId) {found : Probes}
    (s : GitCli (Ledger ω)) (sorted : SortedProbes cat found s) :
    Secures (catCustody ω) (probeSkipped G lead oids found) .nothing s
      fun probes held t => held = .nothing ∧ SortedProbes cat probes t := by
  induction oids generalizing found s with
  | nil => exact secures_ret fun t later => ⟨rfl, sorted.later later.onward⟩
  | cons oid rest ih =>
    unfold probeSkipped
    split
    · exact ih s sorted
    · apply (secures_of_leaves catCustody_seen (header_leaves oid)).bind
      rintro (e | ⟨kind, size⟩) held t - onward ⟨rfl, -⟩
      · exact ih t ((sorted.later onward).insert oid fun ⟨_, _, same, _⟩ => nomatch same)
      · exact ih t ((sorted.later onward).insert oid fun ⟨_, _, same, _⟩ => nomatch same)

theorem probeLine_secures (oid : ObjectId) (line : String) (s : GitCli (Ledger ω))
    (answer : AnswerTo s oid line) :
    Secures (catCustody ω) (probeLine cat.ledgered G oid line) .nothing s
      fun p held t => held = .nothing ∧ (MismatchProbe cat.debug p → ¬ t.Echoes) := by
  unfold probeLine
  split
  · apply (secures_of_leaves catCustody_seen (contains_leaves oid)).bind
    rintro found held t - - ⟨rfl, -⟩
    split
    · exact secures_ret fun _ _ => ⟨rfl, fun ⟨_, _, same, _⟩ => nomatch same⟩
    · exact secures_ret fun _ _ => ⟨rfl, fun mismatch =>
        absurd mismatch (not_mismatchProbe fun ⟨_, _, same⟩ => nomatch same)⟩
  · exact secures_ret fun _ _ => ⟨rfl, fun mismatch =>
      absurd mismatch (not_mismatchProbe fun ⟨_, _, same⟩ => nomatch same)⟩
  · rename_i e parsed
    refine secures_ret fun t later => ⟨rfl, fun mismatch echoes => ?_⟩
    have echo := (answer.later later.onward).echo echoes
    exact not_mismatchProbe (parseLine_echoed echo parsed) mismatch

theorem probeLines_secures (answers : List (ObjectId × String)) {found : Probes}
    (s : GitCli (Ledger ω)) (answered : ∀ a ∈ answers, AnswerTo s a.1 a.2)
    (sorted : SortedProbes cat found s) :
    Secures (catCustody ω) (probeLines cat.ledgered G answers found) .nothing s
      fun probes held t => held = .nothing ∧ SortedProbes cat probes t := by
  induction answers generalizing found s with
  | nil => exact secures_ret fun t later => ⟨rfl, sorted.later later.onward⟩
  | cons answer rest ih =>
    have first := answered answer (List.mem_cons_self ..)
    apply (probeLine_secures answer.1 answer.2 s first).bind
    rintro p held t - onward ⟨rfl, fine⟩
    refine ih t (fun a later => ?_) ((sorted.later onward).insert answer.1 fine)
    exact (answered a (List.mem_cons_of_mem _ later)).later onward

theorem probeLead_secures (lead : List ObjectId) {found : Probes} (s : GitCli (Ledger ω))
    (sorted : SortedProbes cat found s) :
    Secures (catCustody ω) (probeLead cat.ledgered G lead found) .nothing s
      fun probes held t => held = .nothing ∧ SortedProbes cat probes t := by
  unfold probeLead
  split
  · exact secures_ret fun t later => ⟨rfl, sorted.later later.onward⟩
  · apply (askBatch_secures lead 2 none s).bind
    rintro (why | lines | lastIoErr) held t - onward ⟨rfl, answered⟩
    · refine secures_ret fun u next => ⟨rfl, ?_⟩
      refine ((sorted.later onward).later next.onward).insertAll lead fun oid _ mismatch => ?_
      exact absurd mismatch (not_mismatchProbe
        (not_mismatch 0 (by decide) (by decide) (by decide) oid _))
    · refine probeLines_secures (lead.zip lines) t (fun a member => ?_) (sorted.later onward)
      exact (List.forall₂_iff_zip.mp (answered lines rfl)).2 member
    · refine secures_ret fun u next => ⟨rfl, ?_⟩
      refine ((sorted.later onward).later next.onward).insertAll lead fun oid _ mismatch => ?_
      exact absurd mismatch (not_mismatchProbe fun ⟨_, _, same⟩ => nomatch same)

theorem prefetchHeaders_secures (oids : List ObjectId) (s : GitCli (Ledger ω)) :
    Secures (catCustody ω) (prefetchHeaders cat.ledgered G oids) .nothing s
      fun probes held t => held = .nothing ∧
        ∀ p ∈ probes, MismatchProbe cat.debug p → ¬ t.Echoes := by
  unfold prefetchHeaders
  split
  · exact secures_ret fun _ _ => ⟨rfl, fun _ member => nomatch member⟩
  · apply (secures_of_leaves catCustody_seen (partitionLocal_leaves oids)).bind
    rintro ⟨present, toQuery⟩ held t - - ⟨rfl, -⟩
    apply (secures_of_leaves catCustody_seen (claim_leaves toQuery)).bind
    rintro lead held u - - ⟨rfl, -⟩
    have start : SortedProbes cat (insertAll .present present ∅) u :=
      (backed_empty _ _).insertAll present fun _ _ ⟨_, _, same, _⟩ => nomatch same
    apply (probeSkipped_secures lead toQuery u start).bind
    rintro found held v - - ⟨rfl, sorted⟩
    apply (probeLead_secures lead v sorted).bind
    rintro probes held x - - ⟨rfl, whole⟩
    have unclaimed : Leaves GitCli.pipes (unclaim lead : Prog (GitCli (Ledger ω)) Unit) := by
      unfold unclaim
      split
      · exact leaves_pure _
      · refine leaves_await fun s a t ran => ?_
        cases ran
        rfl
    apply (secures_of_leaves catCustody_seen unclaimed).bind
    rintro - held y - onward ⟨rfl, -⟩
    refine secures_ret fun z next => ⟨rfl, ?_⟩
    refine ((whole.later onward).later next.onward).reorder (fun oid => ?_) oids
    exact not_mismatchProbe (not_mismatch (a := "prefetch_headers: missing result") 0 (by decide)
      (by decide) (by decide) oid "")

end

inductive CatCall where
  | rawFetch (oid : ObjectId)
  | prefetchHeaders (oids : List ObjectId)
  deriving DecidableEq

inductive CatAnswer where
  | fetched (result : Except FetcherError Unit)
  | probes (probes : List HeaderProbe)

def CatAnswer.errors : CatAnswer → List FetcherError
  | .fetched (.ok _) => []
  | .fetched (.error e) => [e]
  | .probes found => found.filterMap fun p => match p with
    | .error _ e => some e
    | _ => none

def catProgram (cat : CatFile ω) (G : Gix (Ledger ω)) :
    CatCall → Prog (GitCli (Ledger ω)) CatAnswer
  | .rawFetch oid => return .fetched (← (rawFetch cat.ledgered G oid).run)
  | .prefetchHeaders oids => return .probes (← prefetchHeaders cat.ledgered G oids)

/-- Anything may happen to the world, except that a child's pipes are its parent's alone. -/
def elsewhere (s : GitCli (Ledger ω)) (w : ω) : Option (GitCli (Ledger ω)) :=
  some (s.setWorld ⟨w, s.store.world.children⟩)

def catStep (cat : CatFile ω) (G : Gix (Ledger ω)) :
    Pool (GitCli (Ledger ω)) CatCall CatAnswer → Event CatCall ω →
    Option (Pool (GitCli (Ledger ω)) CatCall CatAnswer) :=
  Pool.step (catProgram cat G) elsewhere

section
variable {cat : CatFile ω} {G : Gix (Ledger ω)}

theorem call_secures (call : CatCall) (s : GitCli (Ledger ω)) :
    Secures (catCustody ω) (catProgram cat G call) .nothing s
      fun answer _ t => ∀ e ∈ answer.errors, Sorted cat e t := by
  cases call with
  | rawFetch oid =>
    apply (rawFetchFrom_secures oid 2 none s).bind
    rintro (e | _) held t - - ⟨rfl, sorted⟩
    · refine secures_ret fun u next e' member => ?_
      cases List.mem_singleton.mp member
      exact (sorted e rfl).later next.onward
    · exact secures_ret fun _ _ _ member => nomatch member
  | prefetchHeaders oids =>
    apply (prefetchHeaders_secures oids s).bind
    rintro probes held t - - ⟨rfl, sorted⟩
    refine secures_ret fun u next e member mismatch echoes => ?_
    obtain ⟨p, among, same⟩ := List.mem_filterMap.mp member
    cases p with
    | error oid e' =>
      cases Option.some.inj same
      exact sorted _ among ⟨oid, e, rfl, mismatch⟩ (echoes.before next.onward)
    | present oid => cases same
    | presentWithHeader oid kind size => cases same
    | headerOnly oid kind size => cases same

theorem open_inStep (poolSize : Nat) (store : Store (Ledger ω)) :
    InStep (GitCli.open poolSize store) := by
  have empty : ∀ i h c, (GitCli.open poolSize store).slotAt i ≠ some ⟨h, some c⟩ := by
    intro i h c found
    have member := List.mem_of_getElem? found
    simp [GitCli.open, BatchChildPool.new] at member
  exact ⟨fun i _ h _ c found => absurd found (empty i h c),
    fun i h c found => absurd found (empty i h c), fun i c found => absurd found (empty i false c)⟩

/-- A pool that has just been opened holds nothing, whatever its calls are to end with. -/
theorem open_secure {κ β : Type} (poolSize : Nat) (store : Store (Ledger ω))
    (post : κ → β → Hold → GitCli (Ledger ω) → Prop) :
    ∃ held, Pool.Secure (catCustody ω) post ⟨GitCli.open poolSize store, []⟩ held :=
  ⟨fun _ => .nothing, open_inStep _ _, fun _ _ => rfl,
    fun _ _ _ => (catCustody ω).apart_nothing _, fun _ => trivial, nofun⟩

theorem elsewhere_calm (s : GitCli (Ledger ω)) (w : ω) (t : GitCli (Ledger ω))
    (happened : elsewhere s w = some t) (inv : InStep s) :
    InStep t ∧ LogsGrow s t ∧ ∀ r : Hold, r.Valid s → r.Valid t ∧ r.Frame s t := by
  cases happened
  have same : (s.setWorld ⟨w, s.store.world.children⟩).pipes = s.pipes := setWorld_pipes rfl
  exact ⟨catCustody_seen.inv same inv, catCustody_seen.onward same, fun r valid =>
    ⟨catCustody_seen.valid r same valid, catCustody_seen.frame r same⟩⟩

/-- Whatever the pipes do and however the calls interleave, the child of a slot that nobody
    holds has had as many lines read from it as were written to it; and as long as the
    children echo what they answer, no call takes another's answer for its own. -/
theorem children_stay_in_step (cat : CatFile ω) (G : Gix (Ledger ω))
    (poolSize trees blobBytes perEntry headers : Nat) (w : ω) (events : List (Event CatCall ω))
    (p : Pool (GitCli (Ledger ω)) CatCall CatAnswer)
    (run : exec (catStep cat G)
      ⟨GitCli.open poolSize (.withCapacities trees blobBytes perEntry headers ⟨w, []⟩), []⟩
      events = some p) :
    (∀ slot ∈ p.shared.batch.slots, slot.held = false → ∀ c, slot.child = some c →
      ∃ log, p.shared.logOf c = some log ∧ log.read.length = log.written.length) ∧
    (p.shared.Echoes → ∀ call answer, (call, .ret answer) ∈ p.threads →
      ∀ e ∈ answer.errors, ¬ Mismatch cat.debug e) := by
  obtain ⟨held, secure⟩ := Pool.run_secure (fun call s _ => call_secures call s) elsewhere_calm run
    (open_secure poolSize _ _)
  constructor
  · rintro ⟨-, -⟩ member rfl c rfl
    obtain ⟨i, found⟩ := List.mem_iff_getElem?.mp member
    obtain ⟨log, known, owes⟩ := secure.inv.even i c found
    exact ⟨log, known, owes_nil.mp owes⟩
  · intro echoes call answer done e among mismatch
    obtain ⟨i, found⟩ := List.mem_iff_getElem?.mp done
    exact secure.finished found e among mismatch echoes

end

open ProjgitDaemon (Clone emptyBlob cloneCat cloneGix)

def ledgerGix : Gix (Ledger Clone) :=
  { cloneGix with
    tryFindObject := fun l oid => cloneGix.tryFindObject l.world oid
    tryFindHeader := fun l oid => cloneGix.tryFindHeader l.world oid
    findReference := fun l name => cloneGix.findReference l.world name }

def catStart : Pool (GitCli (Ledger Clone)) CatCall CatAnswer :=
  ⟨GitCli.open 2 (.withCapacities 4 64 64 4 ⟨⟨false, []⟩, []⟩), []⟩

def twoSlots : List (Event CatCall Clone) :=
  .start (.rawFetch emptyBlob) :: List.replicate 7 (.advance 0) ++
    .start (.prefetchHeaders [emptyBlob]) :: List.replicate 13 (.advance 1) ++
    List.replicate 4 (.advance 0)

theorem twoSlots_result : (exec (catStep cloneCat ledgerGix) catStart twoSlots).map
    (fun p => (p.shared.batch.slots, p.outcomes.map Option.isSome)) =
      some ([⟨false, some 0⟩, ⟨false, some 1⟩], [true, true]) := by
  decide +kernel

theorem two_slots_in_step : ∃ p, exec (catStep cloneCat ledgerGix) catStart twoSlots = some p ∧
    ∀ c < 2, ∃ log, p.shared.logOf c = some log ∧ log.read.length = log.written.length := by
  obtain ⟨p, run, result⟩ := Option.map_eq_some_iff.mp twoSlots_result
  obtain ⟨slots, -⟩ := Prod.mk.inj result
  refine ⟨p, run, fun c small => ?_⟩
  refine (children_stay_in_step cloneCat ledgerGix 2 4 64 64 4 _ twoSlots p run).1
    ⟨false, some c⟩ ?_ rfl c rfl
  rw [slots]
  obtain rfl | rfl : c = 0 ∨ c = 1 := by omega
  · decide
  · decide

end ProjgitGitCli
