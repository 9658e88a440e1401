import Projgit.BatchLines
import Projgit.Contents
import Projgit.ErrorClasses

/-!
Content integrity of the whole system. The daemon's threads, the mounts it serves and the
sidecars run in any interleaving; children answer anything, packs come and go, requests
break off. What a read answers is nevertheless the object of its id, and if the children
tell true headers then so do all probes, on the wire too.
-/
namespace ProjgitGitCli
open ProjgitStore ProjgitCaches ProjgitCoalesce Interleave
variable {ω α : Type}

def TrueLine (cat : CatFile ω) (contents : Contents) (line : String) : Prop :=
  ∀ oid kind size, parseLine cat oid line = .ok (.header kind size) →
    headerOf oid (contents oid) = .ok (kind, size)

/-- `git cat-file --batch-check` tells the kind and size of what it names. -/
def CatFile.Truthful (cat : CatFile ω) (contents : Contents) : Prop :=
  ∀ child w line, (cat.readLine child w).1 = .ok line →
    TrueLine cat contents (BatchChild.stripNewline line)

section
variable {cat : CatFile ω} {G : Gix ω} {contents : Contents} {attested : Prop}

def CleanStore (G : Gix ω) (contents : Contents) (attested : Prop) (s : GitCli ω) : Prop :=
  TrueCaches G contents attested s.store

theorem theStore_faithful (reads : G.Reads contents) :
    (theStore G).Faithful (CleanStore G contents attested) G contents attested :=
  (handle_faithful reads).zoom (fun _ _ => rfl) (fun _ clean => clean) fun _ _ _ clean => clean

theorem cleanStore_setWorld {s : GitCli ω} (clean : CleanStore G contents attested s) (w : ω) :
    CleanStore G contents attested (s.setWorld w) := ⟨clean.trees, clean.blobs, clean.headers⟩

theorem system_yields {op : ω → α × ω} {good : α → Prop} (told : ∀ w, good (op w).1) :
    Yields (CleanStore G contents attested) (system op) good := by
  refine yields_await fun s a t clean ran => ?_
  cases ran
  exact ⟨cleanStore_setWorld clean _, told _⟩

theorem local_keeps {act : GitCli ω → Option (α × GitCli ω)}
    (store : ∀ s a t, act s = some (a, t) → t.store = s.store) :
    Yields (CleanStore G contents attested) (await act) fun _ => True := by
  refine yields_await fun s a t clean ran => ⟨?_, trivial⟩
  rw [CleanStore, store s a t ran]
  exact clean

namespace BatchChild

theorem pipe_keeps (op : ω → Except String α × ω) :
    Yields (CleanStore G contents attested) (pipe op).run fun _ => True :=
  system_yields fun _ => trivial

theorem readLine_true (truthful : attested → cat.Truthful contents) (closed : String)
    (child : Nat) : Yields (CleanStore G contents attested) (readLine cat closed child).run
      fun r => attested → ∀ line, r = .ok line → TrueLine cat contents line := by
  have read : Yields (CleanStore G contents attested) (pipe (cat.readLine child)).run fun r =>
      attested → ∀ line, r = .ok line → TrueLine cat contents (stripNewline line) :=
    system_yields fun w told line same => truthful told child w line same
  refine read.runBind (fun e _ _ line impossible => (nomatch impossible)) fun line truth => ?_
  split
  · exact yields_pure fun _ line impossible => nomatch impossible
  · refine yields_pure fun told line' same => ?_
    cases same
    exact truth told line rfl

theorem query_true (truthful : attested → cat.Truthful contents) (oid : ObjectId) (child : Nat) :
    Yields (CleanStore G contents attested) (query cat oid child).run
      fun r => attested → ∀ line, r = .ok line → TrueLine cat contents line := by
  refine (pipe_keeps (cat.writeLine child oid.toHex)).runBind
    (fun e _ _ line impossible => (nomatch impossible)) fun _ _ => ?_
  refine (pipe_keeps (cat.flush child)).runBind
    (fun e _ _ line impossible => (nomatch impossible)) fun _ _ => ?_
  exact readLine_true truthful _ child

theorem writeAll_keeps (child : Nat) (oids : List ObjectId) :
    Yields (CleanStore G contents attested) (writeAll cat child oids).run fun _ => True := by
  induction oids with
  | nil => exact yields_pure trivial
  | cons oid rest ih => exact (pipe_keeps (cat.writeLine child oid.toHex)).runThen fun _ => ih

theorem readAll_true (truthful : attested → cat.Truthful contents) (child : Nat)
    (oids : List ObjectId) :
    Yields (CleanStore G contents attested) (readAll cat child oids).run fun r =>
      attested → ∀ lines, r = .ok lines → ∀ line ∈ lines, TrueLine cat contents line := by
  induction oids with
  | nil =>
    refine yields_pure fun _ lines same => ?_
    cases same
    simp
  | cons oid rest ih =>
    refine (readLine_true truthful _ child).runBind
      (fun e _ _ lines impossible => (nomatch impossible)) fun line first => ?_
    refine ih.runBind (fun e _ _ lines impossible => (nomatch impossible)) fun more later => ?_
    refine yields_pure fun told lines same => ?_
    cases same
    intro line' member
    rcases List.mem_cons.mp member with rfl | inside
    · exact first told line' rfl
    · exact later told more rfl line' inside

theorem queryBatch_true (truthful : attested → cat.Truthful contents) (oids : List ObjectId)
    (child : Nat) :
    Yields (CleanStore G contents attested) (queryBatch cat oids child).run fun r =>
      attested → ∀ lines, r = .ok lines → ∀ line ∈ lines, TrueLine cat contents line := by
  refine (writeAll_keeps child oids).runBind
    (fun e _ _ lines impossible => (nomatch impossible)) fun _ _ => ?_
  refine (pipe_keeps (cat.flush child)).runBind
    (fun e _ _ lines impossible => (nomatch impossible)) fun _ _ => ?_
  exact readAll_true truthful child oids

end BatchChild

namespace BatchChildPool

theorem firstFree_keeps (order : List Nat) :
    Yields (CleanStore G contents attested) (firstFree order : Prog (GitCli ω) (Option Nat))
      fun _ => True := by
  induction order with
  | nil => exact yields_pure trivial
  | cons i rest ih =>
    have tried : Yields (CleanStore G contents attested)
        (tryLock i : Prog (GitCli ω) Bool) fun _ => True := by
      refine local_keeps fun s a t ran => ?_
      split at ran <;> cases ran <;> rfl
    refine tried.bind fun free _ => ?_
    split
    · exact yields_pure trivial
    · exact ih

theorem acquire_keeps : Yields (CleanStore G contents attested)
    (acquire : Prog (GitCli ω) Nat) fun _ => True := by
  have advanced : Yields (CleanStore G contents attested)
      (advance : Prog (GitCli ω) (Nat × Nat)) fun _ => True := by
    refine local_keeps fun s a t ran => ?_
    cases ran
    rfl
  have locked : ∀ i, Yields (CleanStore G contents attested)
      (lock i : Prog (GitCli ω) Unit) fun _ => True := by
    refine fun i => local_keeps fun s a t ran => ?_
    split at ran <;> cases ran
    rfl
  apply advanced.bind
  rintro ⟨n, start⟩ -
  apply (firstFree_keeps _).bind
  intro free _
  cases free with
  | none => exact (locked start).bind fun _ _ => yields_pure trivial
  | some i => exact yields_pure trivial

theorem childOf_keeps (i : Nat) : Yields (CleanStore G contents attested)
    (childOf i : Prog (GitCli ω) (Option Nat)) fun _ => True := by
  refine local_keeps fun s a t ran => ?_
  cases ran
  rfl

theorem setChild_keeps (i : Nat) (child : Option Nat) : Yields (CleanStore G contents attested)
    (setChild i child : Prog (GitCli ω) Unit) fun _ => True := by
  refine local_keeps fun s a t ran => ?_
  cases ran
  rfl

theorem release_keeps (i : Nat) : Yields (CleanStore G contents attested)
    (release i : Prog (GitCli ω) Unit) fun _ => True := by
  refine local_keeps fun s a t ran => ?_
  cases ran
  rfl

theorem withChild_true (i : Nat) {f : Nat → ExceptT String (Prog (GitCli ω)) α}
    {good : α → Prop} (work : ∀ child, Yields (CleanStore G contents attested) (f child).run
      fun r => attested → ∀ a, r = .ok a → good a) :
    Yields (CleanStore G contents attested) (withChild cat i f).run fun r =>
      attested → ∀ a, r = .ok (.ok a) → good a := by
  have live : Yields (CleanStore G contents attested) (liveChild cat i).run fun _ => True := by
    refine (childOf_keeps i).runLift fun held _ => ?_
    cases held with
    | none =>
      exact (BatchChild.pipe_keeps cat.spawn).runThen fun child =>
        (setChild_keeps i (some child)).runLift fun _ _ => yields_pure trivial
    | some child => exact yields_pure trivial
  refine live.runBind (fun e _ _ a impossible => (nomatch impossible)) fun child _ => ?_
  refine (work child).bind fun r truth => yields_pure fun told a same => ?_
  cases same
  exact truth told a rfl

theorem reset_keeps (cat : CatFile ω) (i : Nat) :
    Yields (CleanStore G contents attested) (reset cat i) fun _ => True := by
  refine (childOf_keeps i).bind fun held _ => ?_
  cases held with
  | none => exact yields_pure trivial
  | some child =>
    have reaped : Yields (CleanStore G contents attested) (system (cat.reap child))
        fun _ => True := system_yields fun _ => trivial
    exact reaped.bind fun _ _ => setChild_keeps i none

end BatchChildPool

theorem classify_keeps (reads : G.Reads contents) (oid : ObjectId) (line : String) :
    Yields (CleanStore G contents attested) (classify cat G oid line).run fun _ => True := by
  have parsed : Yields (CleanStore G contents attested)
      (ExceptT.mk (pure (parseLine cat oid line)) :
        ExceptT FetcherError (Prog (GitCli ω)) ParsedResponse).run fun _ => True :=
    yields_pure trivial
  refine parsed.runThen fun response => ?_
  cases response with
  | missing => exact yields_pure trivial
  | header kind size =>
    refine ((theStore_faithful reads).contains oid).runLift fun found _ => ?_
    split <;> exact yields_pure trivial

theorem rawFetchFrom_keeps (reads : G.Reads contents)
    (truthful : attested → cat.Truthful contents) (oid : ObjectId) (attempts : Nat)
    (lastIoErr : Option String) :
    Yields (CleanStore G contents attested) (rawFetchFrom cat G oid attempts lastIoErr).run
      fun _ => True := by
  induction attempts generalizing lastIoErr with
  | zero => exact yields_pure trivial
  | succ attempts ih =>
    refine BatchChildPool.acquire_keeps.runLift fun slot _ => ?_
    refine ((theStore_faithful reads).contains oid).runLift fun found _ => ?_
    split
    · exact (BatchChildPool.release_keeps slot).runLift fun _ _ => yields_pure trivial
    · have asked : Yields (CleanStore G contents attested)
          (BatchChildPool.withChild cat slot (BatchChild.query cat oid)).run fun r =>
            attested → ∀ line, r = .ok (.ok line) → TrueLine cat contents line :=
        BatchChildPool.withChild_true slot (BatchChild.query_true truthful oid)
      apply asked.runLift
      rintro (spawnErr | e | line) -
      · exact (BatchChildPool.release_keeps slot).runLift fun _ _ => yields_pure trivial
      · exact (BatchChildPool.reset_keeps cat slot).runLift fun _ _ =>
          (BatchChildPool.release_keeps slot).runLift fun _ _ => ih (some e)
      · exact (BatchChildPool.release_keeps slot).runLift fun _ _ =>
          classify_keeps reads oid line

theorem doOrJoin_keeps (key : ObjectId) {f : ExceptT FetcherError (Prog (GitCli ω)) Unit}
    (work : Yields (CleanStore G contents attested) f.run fun _ => True) :
    Yields (CleanStore G contents attested) (doOrJoin key f) fun _ => True := by
  have moves : ∀ a, Yields (CleanStore G contents attested)
      (coalesce a : Prog (GitCli ω) Unit) fun _ => True := by
    refine fun a => local_keeps fun s b t ran => ?_
    obtain ⟨next, -, same⟩ := Option.map_eq_some_iff.mp ran
    cases same
    rfl
  have started : Yields (CleanStore G contents attested)
      (startCall key : Prog (GitCli ω) (CallId × Bool)) fun _ => True := by
    refine local_keeps fun s b t ran => ?_
    obtain ⟨next, -, same⟩ := Option.map_eq_some_iff.mp ran
    cases same
    rfl
  have awaited : ∀ call, Yields (CleanStore G contents attested)
      (awaitResult call : Prog (GitCli ω) (Except String Unit)) fun _ => True := by
    refine fun call => local_keeps fun s b t ran => ?_
    obtain ⟨next, -, answered⟩ := Option.bind_eq_some_iff.mp ran
    split at answered <;> cases answered
    rfl
  apply started.bind
  rintro ⟨call, leader⟩ -
  dsimp only
  split
  · exact work.bind fun r _ => (moves _).bind fun _ _ => (moves _).bind fun _ _ =>
      (moves _).bind fun _ _ => yields_pure trivial
  · exact awaited call

theorem fetchObject_keeps (reads : G.Reads contents)
    (truthful : attested → cat.Truthful contents) (oid : ObjectId) :
    Yields (CleanStore G contents attested) (fetchObject cat G oid).run fun _ => True := by
  refine ((theStore_faithful reads).contains oid).runLift fun found _ => ?_
  split
  · exact yields_pure trivial
  · exact (doOrJoin_keeps oid (rawFetchFrom_keeps reads truthful oid 2 none)).bind fun r _ =>
      yields_pure trivial

def NoneFalse (contents : Contents) (found : Probes) : Prop :=
  Backed (fun p => ¬ TrueOf contents p) (fun _ => False) found

theorem NoneFalse.insert {found : Probes} (clean : NoneFalse contents found) (oid : ObjectId)
    {p : HeaderProbe} (truth : TrueOf contents p) : NoneFalse contents (found.insert oid p) :=
  Backed.insert clean oid fun lie => lie truth

theorem NoneFalse.insertAll {found : Probes} {probe : ObjectId → HeaderProbe}
    (clean : NoneFalse contents found) (oids : List ObjectId)
    (each : ∀ oid, TrueOf contents (probe oid)) :
    NoneFalse contents (insertAll probe oids found) :=
  Backed.insertAll oids clean fun oid _ lie => lie (each oid)

theorem NoneFalse.reorder {found : Probes} (clean : NoneFalse contents found)
    (oids : List ObjectId) : ∀ p ∈ reorderProbes oids found, TrueOf contents p := by
  intro p member
  by_contra lie
  exact Backed.reorder (fun oid lie => lie (trueOf_error contents oid _)) oids clean p member lie

theorem partitionLocal_keeps (reads : G.Reads contents) (oids : List ObjectId) :
    Yields (CleanStore G contents attested) (partitionLocal G oids) fun _ => True := by
  induction oids with
  | nil => exact yields_pure trivial
  | cons oid rest ih =>
    exact ((theStore_faithful reads).contains oid).bind fun found _ => ih.bind fun more _ =>
      yields_pure trivial

theorem probeSkipped_true (reads : G.Reads contents) (lead oids : List ObjectId) {found : Probes}
    (clean : attested → NoneFalse contents found) :
    Yields (CleanStore G contents attested) (probeSkipped G lead oids found) fun probes =>
      attested → NoneFalse contents probes := by
  induction oids generalizing found with
  | nil => exact yields_pure clean
  | cons oid rest ih =>
    by_cases led : oid ∈ lead
    · have passed : probeSkipped G lead (oid :: rest) found = probeSkipped G lead rest found :=
        if_pos led
      rw [passed]
      exact ih clean
    · have looks : probeSkipped G lead (oid :: rest) found = _ := if_neg led
      rw [looks]
      refine ((theStore_faithful reads).header oid).bind fun r tells => ih fun told => ?_
      cases r with
      | error e => exact (clean told).insert oid (trueOf_present contents oid)
      | ok h =>
        refine (clean told).insert oid fun h' carried => ?_
        cases carried
        exact (tells told).ok

theorem probeLine_true (reads : G.Reads contents) (oid : ObjectId) (line : String)
    (truth : attested → TrueLine cat contents line) :
    Yields (CleanStore G contents attested) (probeLine cat G oid line) fun p =>
      attested → TrueOf contents p := by
  unfold probeLine
  split
  · rename_i kind size parsed
    refine ((theStore_faithful reads).contains oid).bind fun found _ => ?_
    split
    · refine yields_pure fun told h carried => ?_
      cases carried
      exact truth told oid kind size parsed
    · exact yields_pure fun _ => trueOf_error contents oid _
  · exact yields_pure fun _ => trueOf_error contents oid _
  · exact yields_pure fun _ => trueOf_error contents oid _

theorem probeLines_true (reads : G.Reads contents) (answers : List (ObjectId × String))
    {found : Probes} (truth : attested → ∀ answer ∈ answers, TrueLine cat contents answer.2)
    (clean : attested → NoneFalse contents found) :
    Yields (CleanStore G contents attested) (probeLines cat G answers found) fun probes =>
      attested → NoneFalse contents probes := by
  induction answers generalizing found with
  | nil => exact yields_pure clean
  | cons answer rest ih =>
    refine (probeLine_true reads answer.1 answer.2 fun told =>
      truth told answer (by simp)).bind fun p right => ?_
    exact ih (fun told other later => truth told other (by simp [later]))
      fun told => (clean told).insert answer.1 (right told)

theorem askBatch_true (truthful : attested → cat.Truthful contents) (lead : List ObjectId)
    (attempts : Nat) (lastIoErr : Option String) :
    Yields (CleanStore G contents attested) (askBatch cat lead attempts lastIoErr) fun outcome =>
      attested → ∀ lines, outcome = .lines lines → ∀ line ∈ lines, TrueLine cat contents line := by
  induction attempts generalizing lastIoErr with
  | zero => exact yields_pure fun _ lines impossible => nomatch impossible
  | succ attempts ih =>
    refine BatchChildPool.acquire_keeps.bind fun slot _ => ?_
    have asked : Yields (CleanStore G contents attested)
        (BatchChildPool.withChild cat slot (BatchChild.queryBatch cat lead)).run fun r =>
          attested → ∀ lines, r = .ok (.ok lines) →
            ∀ line ∈ lines, TrueLine cat contents line :=
      BatchChildPool.withChild_true slot (BatchChild.queryBatch_true truthful lead)
    apply asked.bind
    rintro (spawnErr | e | lines) truth
    · exact (BatchChildPool.release_keeps slot).bind fun _ _ =>
        yields_pure fun _ lines impossible => nomatch impossible
    · exact (BatchChildPool.reset_keeps cat slot).bind fun _ _ =>
        (BatchChildPool.release_keeps slot).bind fun _ _ => ih (some e)
    · refine (BatchChildPool.release_keeps slot).bind fun _ _ =>
        yields_pure fun told lines' same => ?_
      cases same
      exact truth told lines rfl

theorem probeLead_true (reads : G.Reads contents) (truthful : attested → cat.Truthful contents)
    (lead : List ObjectId) {found : Probes} (clean : attested → NoneFalse contents found) :
    Yields (CleanStore G contents attested) (probeLead cat G lead found) fun probes =>
      attested → NoneFalse contents probes := by
  unfold probeLead
  split
  · exact yields_pure clean
  · apply (askBatch_true truthful lead 2 none).bind
    rintro (why | lines | lastIoErr) truth
    · exact yields_pure fun told =>
        (clean told).insertAll lead fun oid => trueOf_error contents oid _
    · refine probeLines_true reads _ (fun told answer member => ?_) clean
      exact truth told lines rfl answer.2 (List.of_mem_zip member).2
    · exact yields_pure fun told =>
        (clean told).insertAll lead fun oid => trueOf_error contents oid _

theorem prefetchHeaders_true (reads : G.Reads contents)
    (truthful : attested → cat.Truthful contents) (oids : List ObjectId) :
    Yields (CleanStore G contents attested) (prefetchHeaders cat G oids) fun probes =>
      attested → ∀ p ∈ probes, TrueOf contents p := by
  unfold prefetchHeaders
  split
  · exact yields_pure fun _ p member => absurd member List.not_mem_nil
  · apply (partitionLocal_keeps reads oids).bind
    rintro ⟨present, toQuery⟩ -
    have claimed : Yields (CleanStore G contents attested)
        (claim toQuery : Prog (GitCli ω) (List ObjectId)) fun _ => True := by
      refine local_keeps fun s a t ran => ?_
      cases ran
      rfl
    refine claimed.bind fun lead _ => ?_
    have start : NoneFalse contents (insertAll .present present ∅) :=
      NoneFalse.insertAll (backed_empty _ _) present (trueOf_present contents)
    refine (probeSkipped_true reads lead toQuery fun _ => start).bind fun found clean => ?_
    refine (probeLead_true reads truthful lead clean).bind fun probes whole => ?_
    have dropped : Yields (CleanStore G contents attested)
        (unclaim lead : Prog (GitCli ω) Unit) fun _ => True := by
      unfold unclaim
      split
      · exact yields_pure trivial
      · refine local_keeps fun s a t ran => ?_
        cases ran
        rfl
    exact dropped.bind fun _ _ => yields_pure fun told => (whole told).reorder oids

theorem gitCli_attests (reads : G.Reads contents) (truthful : attested → cat.Truthful contents) :
    (GitCliFetcher cat G).Attests (CleanStore G contents attested) contents attested :=
  ⟨fetchObject_keeps reads truthful, prefetchHeaders_true reads truthful,
    prefetchHeaders_true reads truthful⟩

end
end ProjgitGitCli

namespace ProjgitDaemon
open ProjgitStore ProjgitGitCli ProjgitCaches Interleave LabelledRuns
variable {ω : Type}

def WireTrue (wire : Wire) (contents : Contents) : HeaderProbeWire → Prop
  | .presentWithHeader hex objectKind size | .headerOnly hex objectKind size =>
    ∀ oid kind, wire.fromHex hex = .ok oid → kindNamed objectKind = some kind →
      headerOf oid (contents oid) = .ok (kind, size)
  | .present _ | .error _ _ _ => True

def TrueResponse (wire : Wire) (contents : Contents) : Response → Prop
  | .headerProbes probes => ∀ p ∈ probes, WireTrue wire contents p
  | _ => True

/-- The caches of all processes and the answers on the wire hold no falsehood. -/
structure Clean (wire : Wire) (G : Gix ω) (contents : Contents) (attested : Prop)
    (s : Daemon ω) : Prop where
  git : CleanStore G contents attested s.git
  sidecars : ∀ i, TrueCaches G contents attested (s.sidecars i)
  answers : attested → ∀ (conn : Nat) c response, s.connections[conn]? = some c →
    c.status = .answered response → TrueResponse wire contents response

def Honoured (G : Gix ω) (contents : Contents) (attested : Prop) : Call → Outcome → Prop
  | .readBlob oid, .blob r => Reports (blobOf oid (contents oid)) r
  | .readTree oid, .tree r => Reports (treeOf G oid (contents oid)) r
  | .header oid, .header r => attested → Reports (headerOf oid (contents oid)) r
  | .prefetchHeaders _, .probes probes | .fetchObjects _, .probes probes =>
    attested → ∀ p ∈ probes, TrueOf contents p
  | _, _ => False

def Rendered (wire : Wire) (G : Gix ω) (contents : Contents) (attested : Prop) :
    Task → Outcome → Prop
  | .connection _, .response response => attested → TrueResponse wire contents response
  | .warm _, _ => True
  | .mounted call, outcome =>
    (∃ refusal, outcome = .refused refusal) ∨ Honoured G contents attested call outcome
  | .sidecar _ call, outcome => Honoured G contents attested call outcome
  | _, _ => False

section
variable {wire : Wire} {cat : CatFile ω} {G : Gix ω} {contents : Contents} {attested : Prop}
  {s t : Daemon ω}

theorem setGit_clean {git : GitCli ω} (clean : Clean wire G contents attested s)
    (kept : CleanStore G contents attested git) :
    Clean wire G contents attested (s.setGit git) := ⟨kept, clean.sidecars, clean.answers⟩

theorem setSidecar_clean (i : Nat) {store : Store ω} (clean : Clean wire G contents attested s)
    (kept : TrueCaches G contents attested store) :
    Clean wire G contents attested (s.setSidecar i store) := by
  refine ⟨cleanStore_setWorld clean.git store.world, fun j => ?_, clean.answers⟩
  by_cases here : j = i
  · subst here
    simp only [Daemon.setSidecar, Function.update_self]
    exact ⟨kept.trees, kept.blobs, kept.headers⟩
  · simp only [Daemon.setSidecar, Function.update_of_ne here]
    exact clean.sidecars j

theorem setStatus_clean (clean : Clean wire G contents attested s) (conn : Nat) {status : Status}
    (truth : attested → ∀ response, status = .answered response →
      TrueResponse wire contents response) :
    Clean wire G contents attested (s.setStatus conn status) := by
  refine ⟨clean.git, clean.sidecars, fun told i c response found answered => ?_⟩
  simp only [Daemon.setStatus, List.getElem?_modify, Option.map_eq_map,
    Option.map_eq_some_iff] at found
  obtain ⟨d, foundD, rfl⟩ := found
  split at answered
  · exact truth told response answered
  · exact clean.answers told i d response foundD answered

theorem newConnection_clean (clean : Clean wire G contents attested s) (request : Request) :
    Clean wire G contents attested
      { s with connections := s.connections ++ [⟨request, .sent⟩] } := by
  refine ⟨clean.git, clean.sidecars, fun told i c response found answered => ?_⟩
  rcases Nat.lt_or_ge i s.connections.length with inside | beyond
  · rw [List.getElem?_append_left inside] at found
    exact clean.answers told i c response found answered
  · rw [List.getElem?_append_right beyond] at found
    have fresh := List.mem_of_getElem? found
    simp only [List.mem_singleton] at fresh
    subst fresh
    cases answered

theorem backend_faithful (reads : G.Reads contents) (truthful : attested → cat.Truthful contents)
    (b : Backend) :
    (b.hydrating G cat).Faithful (Clean wire G contents attested) G contents attested := by
  have store : ((theStore G).zoom Daemon.git Daemon.setGit).Faithful
      (Clean wire G contents attested) G contents attested :=
    (theStore_faithful reads).zoom (fun _ _ => rfl) (fun _ clean => clean.git)
      fun _ _ clean kept => setGit_clean clean kept
  cases b with
  | noop => exact ⟨store, noop_attests⟩
  | gitCli => exact ⟨store, (gitCli_attests reads truthful).zoom (fun _ _ => rfl)
      (fun _ clean => clean.git) fun _ _ clean kept => setGit_clean clean kept⟩

namespace DaemonFetcher

theorem rpc_true (request : Request) :
    Yields (Clean wire G contents attested) (rpc request : Prog (Daemon ω) _) fun r =>
      attested → ∀ response, r = .ok response → TrueResponse wire contents response := by
  have sent : Yields (Clean wire G contents attested)
      (send request : Prog (Daemon ω) Nat) fun _ => True := by
    refine yields_await fun s conn t clean ran => ?_
    cases ran
    exact ⟨newConnection_clean clean request, trivial⟩
  refine sent.bind fun conn _ => yields_await fun s r t clean ran => ?_
  split at ran
  · rename_i request' response answered
    cases ran
    refine ⟨clean, fun told response' same => ?_⟩
    cases same
    exact clean.answers told conn _ response answered rfl
  · cases ran
    exact ⟨clean, fun _ _ impossible => (nomatch impossible)⟩
  · cases ran

theorem fetchObject_keeps (oid : ObjectId) :
    Yields (Clean wire G contents attested)
      (fetchObject wire oid : ExceptT FetcherError (Prog (Daemon ω)) Unit).run fun _ => True := by
  apply (rpc_true (.fetch oid.toHex)).runLift
  rintro (transport | _ | probes | ⟨code, message⟩) - <;> exact yields_pure trivial

theorem orInsert_clean {found : Probes} (clean : NoneFalse contents found) (oid : ObjectId)
    {p : HeaderProbe} (truth : TrueOf contents p) :
    NoneFalse contents (orInsert found oid p) := by
  unfold orInsert
  split
  · exact clean
  · exact clean.insert oid truth

theorem mergeOne_clean {found : Probes} (clean : NoneFalse contents found) {p : HeaderProbeWire}
    (truth : WireTrue wire contents p) : NoneFalse contents (mergeOne wire found p) := by
  cases p with
  | present hex =>
    simp only [mergeOne]
    split
    · exact orInsert_clean clean _ (trueOf_present contents _)
    · exact clean
  | presentWithHeader hex objectKind size =>
    simp only [mergeOne]
    split
    · rename_i oid kind parsed named
      refine orInsert_clean clean oid fun h carried => ?_
      cases carried
      exact truth oid kind parsed named
    · exact clean
  | headerOnly hex objectKind size =>
    simp only [mergeOne]
    split
    · rename_i oid kind parsed named
      refine orInsert_clean clean oid fun h carried => ?_
      cases carried
      exact truth oid kind parsed named
    · exact clean
  | error hex code message =>
    simp only [mergeOne]
    split
    · exact orInsert_clean clean _ (trueOf_error contents _ _)
    · exact clean

theorem takeProbes_true {found : Probes} (oids : List ObjectId)
    (truth : ∀ oid p, found.lookup oid = some p → TrueOf contents p) :
    ∀ p ∈ takeProbes oids found, TrueOf contents p := by
  induction oids generalizing found with
  | nil => simp [takeProbes]
  | cons oid rest ih =>
    intro p member
    rcases List.mem_cons.mp member with rfl | later
    · cases filed : found.lookup oid with
      | none => exact trueOf_error contents oid _
      | some q => exact truth oid q filed
    · refine ih (fun other q filed => ?_) p later
      by_cases same : other = oid
      · subst same
        simp at filed
      · rw [AList.lookup_erase_ne same] at filed
        exact truth other q filed

theorem mergeProbes_true (oids : List ObjectId) {probes : List HeaderProbeWire}
    (truth : ∀ p ∈ probes, WireTrue wire contents p) :
    ∀ p ∈ mergeProbes wire oids probes, TrueOf contents p := by
  have merged : ∀ (probes : List HeaderProbeWire) (found : Probes), NoneFalse contents found →
      (∀ p ∈ probes, WireTrue wire contents p) →
      NoneFalse contents (probes.foldl (mergeOne wire) found) := by
    intro probes
    induction probes with
    | nil => exact fun found clean _ => clean
    | cons p rest ih =>
      intro found clean each
      exact ih _ (mergeOne_clean clean (each p (by simp))) fun q later => each q (by simp [later])
  refine takeProbes_true oids fun oid p filed => ?_
  by_contra lie
  exact merged probes ∅ (backed_empty _ _) truth oid p filed lie

theorem askMany_true (request : List String → Request) (name : String) (oids : List ObjectId) :
    Yields (Clean wire G contents attested)
      (askMany wire request name oids : Prog (Daemon ω) _) fun probes =>
        attested → ∀ p ∈ probes, TrueOf contents p := by
  have errors : ∀ e : ObjectId → FetcherError,
      ∀ p ∈ oids.map fun oid => HeaderProbe.error oid (e oid), TrueOf contents p := by
    intro e p member
    obtain ⟨oid, -, rfl⟩ := List.mem_map.mp member
    exact trueOf_error contents oid _
  unfold askMany
  split
  · exact yields_pure fun _ p member => absurd member List.not_mem_nil
  · apply (rpc_true _).bind
    rintro (transport | _ | probes | ⟨code, message⟩) truth
    · exact yields_pure fun _ => errors _
    · exact yields_pure fun _ => errors _
    · exact yields_pure fun told => mergeProbes_true oids (truth told _ rfl)
    · exact yields_pure fun _ => errors _

end DaemonFetcher

theorem sidecar_faithful (reads : G.Reads contents) (i : Nat) :
    (sidecarStore G wire i).Faithful (Clean wire G contents attested) G contents attested where
  store := (handle_faithful reads).zoom
    (fun t store => by simp [Daemon.sidecar, Daemon.setSidecar, Daemon.world, GitCli.setWorld])
    (fun _ clean => ⟨(clean.sidecars i).trees, (clean.sidecars i).blobs,
      (clean.sidecars i).headers⟩)
    fun _ _ clean kept => setSidecar_clean i clean kept
  fetcher := ⟨DaemonFetcher.fetchObject_keeps, DaemonFetcher.askMany_true _ _,
    DaemonFetcher.askMany_true _ _⟩

theorem kindNamed_str (kind : ObjectKind) : kindNamed (objectKindStr kind) = some kind := by
  cases kind <;> rfl

theorem probeToWire_true (names : ∀ oid : ObjectId, wire.fromHex oid.toHex = .ok oid)
    {p : HeaderProbe} (truth : TrueOf contents p) : WireTrue wire contents (probeToWire p) := by
  cases p with
  | present oid => trivial
  | presentWithHeader oid kind size =>
    intro oid' kind' parsed named
    rw [names oid] at parsed
    rw [kindNamed_str kind] at named
    cases parsed
    cases named
    exact truth _ rfl
  | headerOnly oid kind size =>
    intro oid' kind' parsed named
    rw [names oid] at parsed
    rw [kindNamed_str kind] at named
    cases parsed
    cases named
    exact truth _ rfl
  | error oid e => trivial

theorem backendOf_keeps : Yields (Clean wire G contents attested)
    (backendOf : ExceptT Response (Prog (Daemon ω)) Backend).run fun r =>
      ∀ refusal, r = .error refusal → TrueResponse wire contents refusal := by
  have locked : Yields (Clean wire G contents attested)
      (lockActive : Prog (Daemon ω) (Except Unit (Option Backend))) fun _ => True := by
    refine yields_await fun s a t clean ran => ?_
    cases ran
    exact ⟨clean, trivial⟩
  apply locked.runLift
  rintro (_ | _ | backend) - <;> refine yields_pure fun refusal same => ?_ <;> cases same <;>
    trivial

theorem answer_true {handler : ExceptT Response (Prog (Daemon ω)) Response}
    (handled : Yields (Clean wire G contents attested) handler.run fun r =>
      (∀ refusal, r = .error refusal → TrueResponse wire contents refusal) ∧
        ∀ response, r = .ok response → attested → TrueResponse wire contents response) :
    Yields (Clean wire G contents attested) (answer handler) fun response =>
      attested → TrueResponse wire contents response := by
  refine handled.bind fun r both => ?_
  cases r with
  | error refusal => exact yields_pure fun _ => both.1 refusal rfl
  | ok response => exact yields_pure (both.2 response rfl)

/-- A handler goes on after what refuses with true responses only. -/
theorem refused_true {α : Type} {x : ExceptT Response (Prog (Daemon ω)) α}
    {f : α → ExceptT Response (Prog (Daemon ω)) Response}
    (first : Yields (Clean wire G contents attested) x.run fun r =>
      ∀ refusal, r = .error refusal → TrueResponse wire contents refusal)
    (rest : ∀ a, Yields (Clean wire G contents attested) (f a).run fun r =>
      (∀ refusal, r = .error refusal → TrueResponse wire contents refusal) ∧
        ∀ response, r = .ok response → attested → TrueResponse wire contents response) :
    Yields (Clean wire G contents attested) (x >>= f).run fun r =>
      (∀ refusal, r = .error refusal → TrueResponse wire contents refusal) ∧
        ∀ response, r = .ok response → attested → TrueResponse wire contents response := by
  refine first.runBind (fun e told => ⟨fun refusal same => ?_, fun _ impossible =>
    (nomatch impossible)⟩) fun a _ => rest a
  cases same
  exact told e rfl

theorem handleFetch_true (reads : G.Reads contents) (truthful : attested → cat.Truthful contents)
    (hex : String) :
    Yields (Clean wire G contents attested) (handleFetch G cat wire hex) fun response =>
      attested → TrueResponse wire contents response := by
  apply answer_true
  have parsed : Yields (Clean wire G contents attested)
      (ExceptT.mk (pure ((parseOid wire hex).mapError (Response.err Codes.badOid))) :
        ExceptT Response (Prog (Daemon ω)) ObjectId).run fun r =>
        ∀ refusal, r = .error refusal → TrueResponse wire contents refusal := by
    refine yields_pure fun refusal same => ?_
    cases read : parseOid wire hex <;> rw [read] at same <;> cases same
    trivial
  refine refused_true parsed fun oid => ?_
  refine refused_true backendOf_keeps fun backend => ?_
  have fetched : Yields (Clean wire G contents attested) (backend.fetchOne G cat oid)
      fun _ => True := by
    refine (HydratingObjectStore.header_reports
      (backend_faithful reads truthful backend) oid).bind fun r _ => ?_
    cases r <;> exact yields_pure trivial
  refine fetched.runLift fun r _ => ?_
  cases r with
  | error e =>
    refine yields_pure ⟨fun _ impossible => (nomatch impossible), fun response same _ => ?_⟩
    cases same
    trivial
  | ok _ =>
    refine yields_pure ⟨fun _ impossible => (nomatch impossible), fun response same _ => ?_⟩
    cases same
    trivial

theorem handleBatch_true (names : ∀ oid : ObjectId, wire.fromHex oid.toHex = .ok oid)
    {ask : Backend → List ObjectId → Prog (Daemon ω) (List HeaderProbe)}
    (asked : ∀ backend oids, Yields (Clean wire G contents attested) (ask backend oids)
      fun probes => attested → ∀ p ∈ probes, TrueOf contents p) (hexes : List String) :
    Yields (Clean wire G contents attested) (answer do
      let oids ← parseOids wire hexes
      let backend ← backendOf
      let probes ← ask backend oids
      return .headerProbes (probes.map probeToWire)) fun response =>
        attested → TrueResponse wire contents response := by
  apply answer_true
  have parsed : Yields (Clean wire G contents attested)
      (parseOids wire hexes : ExceptT Response (Prog (Daemon ω)) (List ObjectId)).run fun r =>
        ∀ refusal, r = .error refusal → TrueResponse wire contents refusal := by
    refine yields_pure fun refusal same => ?_
    cases read : hexes.mapM (parseOid wire) <;> rw [read] at same <;> cases same
    trivial
  refine refused_true parsed fun oids => ?_
  refine refused_true backendOf_keeps fun backend => ?_
  refine (asked backend oids).runLift fun probes truth => ?_
  refine yields_pure ⟨fun _ impossible => (nomatch impossible), fun response same told => ?_⟩
  cases same
  intro p member
  obtain ⟨q, among, rfl⟩ := List.mem_map.mp member
  exact probeToWire_true names (truth told q among)

theorem dispatch_true (reads : G.Reads contents) (truthful : attested → cat.Truthful contents)
    (names : ∀ oid : ObjectId, wire.fromHex oid.toHex = .ok oid) (request : Request) :
    Yields (Clean wire G contents attested) (dispatch G cat wire request) fun response =>
      attested → TrueResponse wire contents response := by
  cases request with
  | fetch hex => exact handleFetch_true reads truthful hex
  | prefetchHeaders hexes =>
    refine handleBatch_true names (fun backend oids => ?_) hexes
    exact HydratingObjectStore.prefetchHeaders_true (backend_faithful reads truthful backend) oids
  | fetchMany hexes =>
    exact handleBatch_true names (fun backend oids =>
      HydratingObjectStore.fetchObjects_true (backend_faithful reads truthful backend) oids) hexes

theorem handleConnection_true (reads : G.Reads contents)
    (truthful : attested → cat.Truthful contents)
    (names : ∀ oid : ObjectId, wire.fromHex oid.toHex = .ok oid) (conn : Nat) :
    Yields (Clean wire G contents attested) (handleConnection G cat wire conn) fun response =>
      attested → TrueResponse wire contents response := by
  have accepted : Yields (Clean wire G contents attested)
      (accept conn : Prog (Daemon ω) Request) fun _ => True := by
    refine yields_await fun s request t clean ran => ⟨?_, trivial⟩
    split at ran
    · cases ran
      exact setStatus_clean clean conn fun _ _ impossible => nomatch impossible
    · cases ran
  refine accepted.bind fun request _ => ?_
  refine (dispatch_true reads truthful names request).bind fun response truth => ?_
  have replied : Yields (Clean wire G contents attested)
      (reply conn response : Prog (Daemon ω) Unit) fun _ => True := by
    refine yields_await fun s a t clean ran => ⟨?_, trivial⟩
    split at ran
    · cases ran
      refine setStatus_clean clean conn fun told response' same => ?_
      cases same
      exact truth told
    · cases ran
      exact clean
  exact replied.bind fun _ _ => yields_pure truth

theorem perform_honoured {H : HydratingObjectStore (Prog (Daemon ω))}
    (faithful : H.Faithful (Clean wire G contents attested) G contents attested) (call : Call) :
    Yields (Clean wire G contents attested) (perform H call)
      (Honoured G contents attested call) := by
  cases call with
  | readBlob oid =>
    exact (HydratingObjectStore.readBlob_reports faithful oid).bind fun r reports =>
      yields_pure reports
  | readTree oid =>
    exact (HydratingObjectStore.readTree_reports faithful oid).bind fun r reports =>
      yields_pure reports
  | header oid =>
    exact (HydratingObjectStore.header_reports faithful oid).bind fun r reports =>
      yields_pure reports
  | prefetchHeaders oids =>
    exact (HydratingObjectStore.prefetchHeaders_true faithful oids).bind fun r truth =>
      yields_pure truth
  | fetchObjects oids =>
    exact (HydratingObjectStore.fetchObjects_true faithful oids).bind fun r truth =>
      yields_pure truth

theorem program_rendered (reads : G.Reads contents) (truthful : attested → cat.Truthful contents)
    (names : ∀ oid : ObjectId, wire.fromHex oid.toHex = .ok oid) (task : Task) :
    Yields (Clean wire G contents attested) (program G cat wire task)
      (Rendered wire G contents attested task) := by
  cases task with
  | connection conn =>
    exact (handleConnection_true reads truthful names conn).bind fun response truth =>
      yields_pure truth
  | warm rootTree =>
    refine backendOf_keeps.bind fun r _ => ?_
    cases r with
    | error refusal => exact yields_pure trivial
    | ok backend =>
      exact (HydratingObjectStore.warmTreeClosure_keeps
        (backend_faithful reads truthful backend) rootTree).bind fun _ _ => yields_pure trivial
  | mounted call =>
    refine backendOf_keeps.bind fun r _ => ?_
    cases r with
    | error refusal => exact yields_pure (Or.inl ⟨refusal, rfl⟩)
    | ok backend =>
      exact (perform_honoured (backend_faithful reads truthful backend) call).mono
        fun outcome honoured => Or.inr honoured
  | sidecar process call => exact perform_honoured (sidecar_faithful reads process) call

theorem incident_clean {e : Incident ω} (happened : incident s e = some t)
    (clean : Clean wire G contents attested s) : Clean wire G contents attested t := by
  cases e with
  | world w =>
    cases happened
    exact setGit_clean clean (cleanStore_setWorld clean.git w)
  | evict oid =>
    cases happened
    exact setGit_clean clean ⟨clean.git.trees, clean.git.blobs,
      fun told => cached_erase (clean.git.headers told) oid⟩
  | disconnect conn why =>
    cases happened
    exact setStatus_clean clean conn fun _ _ impossible => nomatch impossible
  | request request =>
    cases happened
    exact newConnection_clean clean request

/-- Along every run of an attached daemon, its mounts and its sidecars, whatever happens to
    the disk and the connections meanwhile, an answer is that of the object asked for. -/
theorem contents_are_never_mixed_up (reads : G.Reads contents)
    (names : ∀ oid : ObjectId, wire.fromHex oid.toHex = .ok oid) (backend : Backend)
    (poolSize trees blobBytes perEntry headers : Nat) (w : ω) (sidecars : Nat → Store Unit)
    (fresh : ∀ i, TrueCaches G contents True (sidecars i))
    (events : List (Event Task (Incident ω))) (p : Pool (Daemon ω) Task Outcome)
    (run : exec (daemonStep G cat wire) ⟨Daemon.attached backend poolSize
      (.withCapacities trees blobBytes perEntry headers w) sidecars, []⟩ events = some p) :
    (∀ task outcome, (task, .ret outcome) ∈ p.threads →
      Rendered wire G contents (cat.Truthful contents) task outcome) ∧
    (cat.Truthful contents → ∀ (conn : Nat) c response, p.shared.connections[conn]? = some c →
      c.status = .answered response → TrueResponse wire contents response) := by
  have start : Clean wire G contents (cat.Truthful contents) (Daemon.attached backend poolSize
      (.withCapacities trees blobBytes perEntry headers w) sidecars) := by
    refine ⟨trueCaches_new trees blobBytes perEntry headers w, fun i => ⟨(fresh i).trees,
      (fresh i).blobs, fun _ => (fresh i).headers trivial⟩, fun _ conn c response found => ?_⟩
    simp [Daemon.attached] at found
  obtain ⟨clean, rendered⟩ := Pool.run_yields (program_rendered reads id names)
    (fun _ _ _ happened clean => incident_clean happened clean) start run
  exact ⟨rendered, clean.answers⟩

end

section Fixture
open ProjgitErrors

def cloneContents : Contents := fun oid => if oid = emptyBlob then some ⟨.blob, []⟩ else none

theorem cloneGix_reads : cloneGix.Reads cloneContents := by
  constructor
  · intro w oid obj answered
    simp only [cloneGix, Except.ok.injEq] at answered
    split at answered
    · rename_i here
      cases answered
      simp [cloneContents, here.2]
    · cases answered
  · intro w oid h answered
    simp only [cloneGix, Except.ok.injEq] at answered
    split at answered
    · rename_i here
      cases answered
      simp [cloneContents, here.2, Object.header]
    · cases answered

theorem hex_lower (oid : ObjectId) : oid.toHex.toList.map Char.toLower = oid.toHex.toList := by
  have each : hexDigits.all fun c => c.toLower == c := by decide
  conv_rhs => rw [← List.map_id oid.toHex.toList]
  refine List.map_congr_left fun c member => ?_
  exact eq_of_beq (List.all_eq_true.mp each c (hex_digits oid c member))

/-- A header line ends in its size, up to whitespace. -/
theorem header_ends {oid : ObjectId} {kind : ObjectKind} {size : Nat} {line : String}
    (header : HeaderLine oid kind size line) {last : Char}
    (ends : line.toList.getLast? = some last) : isWhitespace last ∨ last.isDigit := by
  obtain ⟨sha, text, shape, -, ⟨before, sign, digits, after, rfl, -, blank, -, some_, all, -⟩, -⟩ :=
    header
  have whole : line.toList = (sha ++ ' ' :: ((kindName kind).toList ++ ' ' :: (before ++ sign))) ++
      (digits ++ after) := by
    rw [shape]
    simp
  have nonempty : digits ++ after ≠ [] := by simp [some_]
  rw [whole, List.getLast?_append_of_ne_nil _ nonempty] at ends
  rcases List.mem_append.mp (List.mem_of_getLast? ends) with digit | space
  · exact Or.inr (all last digit)
  · exact Or.inl (blank last space)

/-- Only the blob has the line of the blob. -/
theorem blobLine_header {oid : ObjectId} {kind : ObjectKind} {size : Nat}
    (header : HeaderLine oid kind size (emptyBlob.toHex ++ " blob 0")) :
    headerOf oid (cloneContents oid) = .ok (kind, size) := by
  have read := (@parse_header_iff _ cloneCat oid _ kind size).mpr header
  obtain ⟨sha, text, shape, echo, -⟩ := header
  have cut := cutAtSpace_some.mpr ⟨shape, echo_unbroken echo⟩
  have known : cutAtSpace (emptyBlob.toHex ++ " blob 0").toList =
      (emptyBlob.toHex.toList, some "blob 0".toList) := by decide +kernel
  obtain ⟨rfl, -⟩ := Prod.mk.inj (known.symm.trans cut)
  have lower := of_decide_eq_true echo
  rw [hex_lower, hex_lower] at lower
  have asked := congrArg cloneWire.fromHex (String.toList_inj.mp lower)
  rw [cloneWire_reads, cloneWire_reads] at asked
  cases asked
  have blob : parseLine cloneCat emptyBlob (emptyBlob.toHex ++ " blob 0") =
      .ok (.header .blob 0) := by decide +kernel
  cases blob.symm.trans read
  decide +kernel

theorem cloneCat_truthful : cloneCat.Truthful cloneContents := by
  intro child w line answered oid kind size parsed
  have header := (parse_header_iff oid _ kind size).mp parsed
  simp only [cloneCat] at answered
  split at answered
  · cases answered
    obtain ⟨sha, text, shape, -⟩ := header
    simp [BatchChild.stripNewline] at shape
  · rename_i asked rest listed
    split at answered
    · rename_i blob
      cases answered
      have stripped : BatchChild.stripNewline (emptyBlob.toHex ++ " blob 0\n") =
          emptyBlob.toHex ++ " blob 0" := by decide +kernel
      rw [blob, stripped] at header
      exact blobLine_header header
    · cases answered
      have stripped : (BatchChild.stripNewline (asked ++ " missing\n")).toList =
          asked.toList ++ " missing".toList := by
        simp [BatchChild.stripNewline, String.toList_append]
      have last : (BatchChild.stripNewline (asked ++ " missing\n")).toList.getLast? =
          some 'g' := by
        rw [stripped, List.getLast?_append_of_ne_nil _ (by decide)]
        decide
      have impossible : ¬ (isWhitespace 'g' ∨ 'g'.isDigit) := by decide
      exact absurd (header_ends header last) impossible

/-- The blobs that reads of sidecars have answered. -/
def blobsRead (p : Pool (Daemon Clone) Task Outcome) : List (ObjectId × Utf8Bytes.Bytes) :=
  p.threads.filterMap fun thread => match thread with
    | (.sidecar _ (.readBlob oid), .ret (.blob (.ok bytes))) => some (oid, bytes)
    | _ => none

theorem mem_blobsRead {p : Pool (Daemon Clone) Task Outcome} {oid : ObjectId}
    {bytes : Utf8Bytes.Bytes} (read : (oid, bytes) ∈ blobsRead p) :
    ∃ process, (.sidecar process (.readBlob oid), .ret (.blob (.ok bytes))) ∈ p.threads := by
  obtain ⟨thread, member, same⟩ := List.mem_filterMap.mp read
  split at same
  · rename_i process oid' bytes'
    cases same
    exact ⟨process, member⟩
  · cases same

theorem fetchRun_reads :
    (exec (daemonStep cloneGix cloneCat cloneWire) cloneStart fetchRun).map blobsRead =
      some [(emptyBlob, [])] := by
  decide +kernel

/-- A sidecar asks for the header of a blob that is on the remote, and has it from the daemon. -/
def headerRun : List (Event Task (Incident Clone)) :=
  .start (.sidecar 0 (.prefetchHeaders [emptyBlob])) :: List.replicate 4 (.advance 0) ++
    .start (.connection 0) :: List.replicate 20 (.advance 1) ++ List.replicate 2 (.advance 0)

/-- The headers that sidecars have been told. -/
def headersTold (p : Pool (Daemon Clone) Task Outcome) : List (ObjectId × ObjectKind × Nat) :=
  p.threads.flatMap fun thread => match thread with
    | (.sidecar _ (.prefetchHeaders _), .ret (.probes probes)) =>
      probes.filterMap fun probe => probe.carried.map fun h => (probe.oid, h)
    | _ => []

theorem mem_headersTold {p : Pool (Daemon Clone) Task Outcome} {oid : ObjectId}
    {h : ObjectKind × Nat} (told : (oid, h) ∈ headersTold p) :
    ∃ process oids probes, (.sidecar process (.prefetchHeaders oids), .ret (.probes probes)) ∈
      p.threads ∧ ∃ probe ∈ probes, probe.oid = oid ∧ probe.carried = some h := by
  obtain ⟨thread, member, inside⟩ := List.mem_flatMap.mp told
  split at inside
  · rename_i process oids probes
    obtain ⟨probe, among, carried⟩ := List.mem_filterMap.mp inside
    obtain ⟨h', some_, same⟩ := Option.map_eq_some_iff.mp carried
    cases same
    exact ⟨process, oids, probes, member, probe, among, rfl, some_⟩
  · cases inside

theorem headerRun_tells :
    (exec (daemonStep cloneGix cloneCat cloneWire) cloneStart headerRun).map headersTold =
      some [(emptyBlob, .blob, 0)] := by
  decide +kernel

theorem fetched_blob_is_the_object :
    (∃ p, exec (daemonStep cloneGix cloneCat cloneWire) cloneStart fetchRun = some p ∧
      blobsRead p = [(emptyBlob, [])] ∧ blobOf emptyBlob (cloneContents emptyBlob) = .ok []) ∧
    ∃ p, exec (daemonStep cloneGix cloneCat cloneWire) cloneStart headerRun = some p ∧
      headersTold p = [(emptyBlob, .blob, 0)] ∧
      headerOf emptyBlob (cloneContents emptyBlob) = .ok (.blob, 0) := by
  have rendered : ∀ events p,
      exec (daemonStep cloneGix cloneCat cloneWire) cloneStart events = some p → _ :=
    fun events p run => contents_are_never_mixed_up cloneGix_reads cloneWire_reads .gitCli
      2 4 64 64 4 ⟨false, []⟩ _ (fun _ => trueCaches_new 4 64 64 4 ()) events p run
  constructor
  · obtain ⟨p, run, read⟩ := Option.map_eq_some_iff.mp fetchRun_reads
    obtain ⟨process, done⟩ := mem_blobsRead (read ▸ List.mem_singleton_self _)
    exact ⟨p, run, read, Reports.ok ((rendered _ p run).1 _ _ done)⟩
  · obtain ⟨p, run, told⟩ := Option.map_eq_some_iff.mp headerRun_tells
    obtain ⟨process, oids, probes, done, probe, among, named, carried⟩ :=
      mem_headersTold (told ▸ List.mem_singleton_self _)
    have truth := (rendered _ p run).1 _ _ done cloneCat_truthful probe among _ carried
    rw [named] at truth
    exact ⟨p, run, told, truth⟩

end Fixture
end ProjgitDaemon
