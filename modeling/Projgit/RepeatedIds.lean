import Projgit.BatchResults
import Projgit.DaemonFetch
import Projgit.Gvfs

/-!
Repeated ids in a batch. `GitCliFetcher`, `GvfsFetcher` and `DaemonFetcher` all file their
probes under the id and hand each out once, so the second occurrence of an id is answered
with an error of the reassembly, whatever became of the object. Other threads may do
anything between two actions of the call.
-/
namespace ProjgitStore
open HandOut

inductive ProbeOutcome where
  | present
  | presentWithHeader (kind : ObjectKind) (size : Nat)
  | headerOnly (kind : ObjectKind) (size : Nat)
  | error
  deriving DecidableEq

def HeaderProbe.outcome : HeaderProbe → ProbeOutcome
  | .present _ => .present
  | .presentWithHeader _ kind size => .presentWithHeader kind size
  | .headerOnly _ kind size => .headerOnly kind size
  | .error _ _ => .error

/-- One probe per input, naming it, and the same outcome wherever an input is repeated. -/
structure RepeatsAgree (oids : List ObjectId) (probes : List HeaderProbe) : Prop where
  inOrder : probes.map HeaderProbe.oid = oids
  agree : ∀ (i j : Nat) oid p q, oids[i]? = some oid → oids[j]? = some oid →
    probes[i]? = some p → probes[j]? = some q → p.outcome = q.outcome

/-- A reassembly that answers an id without a probe with an error. -/
def Reassembles (oids : List ObjectId) (probes : List HeaderProbe) : Prop :=
  ∃ (missing : ObjectId → FetcherError) (found : AList fun _ : ObjectId => HeaderProbe),
    Filed HeaderProbe.oid found ∧ probes = handOut (fun oid => .error oid (missing oid)) oids found

variable {oids : List ObjectId} {probes : List HeaderProbe}

theorem Reassembles.agree_of_nodup (reassembled : Reassembles oids probes)
    (distinct : oids.Nodup) : RepeatsAgree oids probes := by
  obtain ⟨missing, found, filed, rfl⟩ := reassembled
  refine ⟨handOut_named filed (fun _ => rfl) oids, fun i j oid p q first second one other => ?_⟩
  obtain ⟨inside, here⟩ := List.getElem?_eq_some_iff.mp first
  obtain ⟨inside', there⟩ := List.getElem?_eq_some_iff.mp second
  have same : i = j := (List.Nodup.getElem_inj_iff distinct).mp (here.trans there.symm)
  subst same
  cases one.symm.trans other
  rfl

/-- A repeated id with a successful probe is answered once with it and once with an error. -/
theorem handOut_disagrees {missing : ObjectId → FetcherError}
    {found : AList fun _ : ObjectId => HeaderProbe} (twice : ¬ oids.Nodup)
    (succeeded : ∀ oid ∈ oids, ∃ p, found.lookup oid = some p ∧ p.outcome ≠ .error) :
    ¬ RepeatsAgree oids (handOut (fun oid => .error oid (missing oid)) oids found) := by
  intro agrees
  obtain ⟨oid, again⟩ : ∃ oid, 1 < oids.count oid := by
    by_contra none
    push Not at none
    exact twice (List.nodup_iff_count_le_one.mpr none)
  obtain ⟨i, j, earlier, first, second⟩ := two_places again
  obtain ⟨k, here, fresh⟩ := first_place (List.mem_of_getElem? first)
  obtain ⟨p, filed, fine⟩ := succeeded oid (List.mem_of_getElem? first)
  have answer : (handOut (fun oid => .error oid (missing oid)) oids found)[k]? = some p := by
    simp [handOut_getElem?, here, fresh, filed]
  exact fine (agrees.agree k j oid p _ here second answer (handOut_again earlier first second))

theorem failures_agree (why : ObjectId → FetcherError) (oids : List ObjectId) :
    RepeatsAgree oids (oids.map fun oid => .error oid (why oid)) := by
  refine ⟨by simp [Function.comp_def, HeaderProbe.oid], fun i j oid p q first second one other => ?_⟩
  simp only [List.getElem?_map, first, second, Option.map_some, Option.some.injEq] at one other
  rw [← one, ← other, HeaderProbe.outcome]

end ProjgitStore

namespace ProjgitGitCli
open ProjgitStore HandOut Interleave
variable {ω : Type} {cat : CatFile ω} {G : Gix ω}

theorem reorderProbes_eq (oids : List ObjectId) (found : Probes) :
    reorderProbes oids found = handOut (fun oid =>
      .error oid (.backend oid "prefetch_headers: missing result")) oids found := by
  induction oids generalizing found with
  | nil => rfl
  | cons oid rest ih => simp [reorderProbes, handOut, ih]

theorem insertAll_filed {probe : ObjectId → HeaderProbe} (named : ∀ oid, (probe oid).oid = oid)
    (oids : List ObjectId) {found : Probes} (filed : Filed HeaderProbe.oid found) :
    Filed HeaderProbe.oid (insertAll probe oids found) := by
  unfold insertAll
  induction oids generalizing found with
  | nil => exact filed
  | cons oid rest ih => exact ih (filed.insert (named oid))

theorem probeSkipped_filed (lead oids : List ObjectId) {found : Probes}
    (filed : Filed HeaderProbe.oid found) (s : GitCli ω) :
    Ensures (.anyone _) (probeSkipped G lead oids found) s
      fun found _ => Filed HeaderProbe.oid found := by
  induction oids generalizing found s with
  | nil => exact ensures_ret fun _ _ _ => filed
  | cons oid rest ih =>
    unfold probeSkipped
    split
    · exact ih filed s
    · apply (ensures_anyone _ s).bind
      intro r t _ _ _
      cases r with
      | error e =>
        apply ih
        exact filed.insert rfl
      | ok header =>
        apply ih
        exact filed.insert rfl

theorem probeLine_named (oid : ObjectId) (line : String) (s : GitCli ω) :
    Ensures (.anyone _) (probeLine cat G oid line) s fun p _ => p.oid = oid := by
  unfold probeLine
  split
  · apply (ensures_anyone _ s).bind
    intro present t _ _ _
    split
    · exact ensures_ret fun _ _ _ => rfl
    · exact ensures_ret fun _ _ _ => rfl
  · exact ensures_ret fun _ _ _ => rfl
  · exact ensures_ret fun _ _ _ => rfl

theorem probeLines_filed (pairs : List (ObjectId × String)) {found : Probes}
    (filed : Filed HeaderProbe.oid found) (s : GitCli ω) :
    Ensures (.anyone _) (probeLines cat G pairs found) s
      fun found _ => Filed HeaderProbe.oid found := by
  induction pairs generalizing found s with
  | nil => exact ensures_ret fun _ _ _ => filed
  | cons pair rest ih =>
    obtain ⟨oid, line⟩ := pair
    apply (probeLine_named oid line s).bind
    exact fun p t _ _ named => ih (filed.insert named) t

theorem probeLead_filed (lead : List ObjectId) {found : Probes}
    (filed : Filed HeaderProbe.oid found) (s : GitCli ω) :
    Ensures (.anyone _) (probeLead cat G lead found) s
      fun found _ => Filed HeaderProbe.oid found := by
  unfold probeLead
  split
  · exact ensures_ret fun _ _ _ => filed
  · apply (ensures_anyone _ s).bind
    intro outcome t _ _ _
    cases outcome with
    | spawnFailed why => exact ensures_ret fun _ _ _ => insertAll_filed (fun _ => rfl) lead filed
    | lines lines => exact probeLines_filed _ filed t
    | exhausted why => exact ensures_ret fun _ _ _ => insertAll_filed (fun _ => rfl) lead filed

theorem prefetchHeaders_reassembles (oids : List ObjectId) (s : GitCli ω) :
    Ensures (.anyone _) (prefetchHeaders cat G oids) s fun probes _ => Reassembles oids probes := by
  unfold prefetchHeaders
  split
  · rename_i none
    rw [List.isEmpty_iff.mp none]
    exact ensures_ret fun _ _ _ => ⟨fun oid => .notHydratable oid, ∅, filed_empty, rfl⟩
  · apply (ensures_anyone _ s).bind
    intro parts t _ _ _
    obtain ⟨present, toQuery⟩ := parts
    apply (ensures_anyone _ t).bind
    intro lead u _ _ _
    have filed : Filed HeaderProbe.oid (insertAll .present present ∅) :=
      insertAll_filed (fun _ => rfl) present filed_empty
    refine (probeSkipped_filed lead toQuery filed u).bind fun found v _ _ filed => ?_
    refine (probeLead_filed lead filed v).bind fun found w _ _ filed => ?_
    refine (ensures_anyone _ w).bind fun _ x _ _ _ => ?_
    exact ensures_ret fun _ _ _ => ⟨_, found, filed, reorderProbes_eq oids found⟩

theorem lookup_insertAll (probe : ObjectId → HeaderProbe) {oids : List ObjectId} {oid : ObjectId}
    {found : Probes} (listed : oid ∈ oids ∨ found.lookup oid = some (probe oid)) :
    (insertAll probe oids found).lookup oid = some (probe oid) := by
  unfold insertAll
  induction oids generalizing found with
  | nil => exact listed.resolve_left List.not_mem_nil
  | cons o rest ih =>
    apply ih
    by_cases same : oid = o
    · subst same
      simp
    · rcases listed with member | here
      · exact .inl ((List.mem_cons.mp member).resolve_left same)
      · exact .inr (by rwa [AList.lookup_insert_ne same])

def fullGix : Gix Unit where
  tryFindObject _ _ := .ok (some ⟨.blob, []⟩)
  tryFindHeader _ _ := .ok (some (.blob, 0))
  treeIter _ := []
  commitTreeId _ := .error "no commit"
  committerSeconds _ := .error "no commit"
  findReference _ _ := .error "no reference"

def noChild : CatFile Unit where
  spawn _ := (.error "No such file or directory", ())
  writeLine _ _ _ := (.error "Broken pipe", ())
  flush _ _ := (.error "Broken pipe", ())
  readLine _ _ := (.ok "", ())
  reap _ _ := ((), ())
  debug text := text

theorem contains_full (oid : ObjectId) (s : GitCli Unit) :
    ((theStore fullGix).contains oid).alone s = some (true, s) := rfl

theorem partitionLocal_full (oids : List ObjectId) (s : GitCli Unit) :
    (partitionLocal fullGix oids).alone s = some ((oids, []), s) := by
  induction oids with
  | nil => rfl
  | cons oid rest ih =>
    unfold partitionLocal
    simp [contains_full, ih]

theorem prefetchHeaders_full {oids : List ObjectId} (some_ : oids ≠ []) (s : GitCli Unit) :
    (prefetchHeaders noChild fullGix oids).alone s =
      some (reorderProbes oids (insertAll .present oids ∅), s) := by
  unfold prefetchHeaders
  have asks : oids.isEmpty = false := by simpa using some_
  simp [asks, partitionLocal_full, claim, claimAll, probeSkipped, probeLead, unclaim]

theorem prefetchHeaders_agrees_iff (oids : List ObjectId) :
    (∀ (ω : Type) (cat : CatFile ω) (G : Gix ω) (s : GitCli ω),
      Ensures (.anyone _) (prefetchHeaders cat G oids) s fun probes _ => RepeatsAgree oids probes) ↔
    oids.Nodup := by
  constructor
  · intro agrees
    by_contra twice
    have some_ : oids ≠ [] := by
      intro none
      exact twice (none ▸ List.nodup_nil)
    have answer := (agrees Unit noChild fullGix (.open 1 (.open ()))).alone trivial
      (prefetchHeaders_full some_ _)
    rw [reorderProbes_eq] at answer
    refine handOut_disagrees twice (fun oid member => ?_) answer
    exact ⟨_, lookup_insertAll _ (.inl member), by simp [HeaderProbe.outcome]⟩
  · intro distinct ω cat G s
    exact (prefetchHeaders_reassembles oids s).mono fun _ _ _ _ reassembled =>
      reassembled.agree_of_nodup distinct

end ProjgitGitCli

namespace ProjgitGvfs
open ProjgitStore ProjgitGitCli HandOut Interleave
variable {ω : Type} {client : GvfsClient ω} {G : Gix ω}

theorem reorderProbes_eq (oids : List ObjectId) (found : Probes) :
    reorderProbes oids found = handOut (fun oid =>
      .error oid (.backend oid "gvfs prefetch_headers: missing result")) oids found := by
  induction oids generalizing found with
  | nil => rfl
  | cons oid rest ih => simp [reorderProbes, handOut, ih]

theorem partitionSizes_filed (oids : List ObjectId) {found : Probes}
    (filed : Filed HeaderProbe.oid found) (s : Store ω) :
    Ensures (.anyone _) (partitionSizes G oids found) s
      fun r _ => Filed HeaderProbe.oid r.1 := by
  induction oids generalizing found s with
  | nil => exact ensures_ret fun _ _ _ => filed
  | cons oid rest ih =>
    apply (ensures_anyone _ s).bind
    intro present t _ _ _
    split
    · apply ih
      exact filed.insert rfl
    · refine (ih filed t).bind fun r u _ _ kept => ?_
      exact ensures_ret fun _ _ _ => kept

theorem prefetchHeaders_reassembles (oids : List ObjectId) (s : Store ω) :
    Ensures (.anyone _) (prefetchHeaders client G oids) s
      fun probes _ => Reassembles oids probes := by
  unfold prefetchHeaders
  split
  · rename_i none
    rw [List.isEmpty_iff.mp none]
    exact ensures_ret fun _ _ _ => ⟨fun oid => .notHydratable oid, ∅, filed_empty, rfl⟩
  · apply (partitionSizes_filed oids filed_empty s).bind
    intro parts t _ _ filed
    obtain ⟨found, remote⟩ := parts
    dsimp only
    split
    · exact ensures_ret fun _ _ _ => ⟨_, found, filed, reorderProbes_eq oids found⟩
    · apply (ensures_anyone _ t).bind
      intro answer u _ _ _
      have sized : ∀ sizes oid, (probeSize sizes oid).oid = oid := by
        intro sizes oid
        unfold probeSize
        split <;> rfl
      cases answer with
      | error msg =>
        refine ensures_ret fun _ _ _ => ⟨_, _, ?_, reorderProbes_eq oids _⟩
        exact insertAll_filed (fun _ => rfl) remote filed
      | ok sizes =>
        refine ensures_ret fun _ _ _ => ⟨_, _, ?_, reorderProbes_eq oids _⟩
        exact insertAll_filed (sized sizes) remote filed

theorem partitionSizes_full (oids : List ObjectId) (found : Probes) (s : Store Unit) :
    (partitionSizes fullGix oids found).alone s = some ((insertAll .present oids found, []), s) := by
  induction oids generalizing found with
  | nil => rfl
  | cons oid rest ih =>
    have here : ((fullGix.handle : StoreHandle (Prog (Store Unit))).contains oid).alone s =
        some (true, s) := rfl
    unfold partitionSizes
    simp [here, ih, insertAll]

def noServer : GvfsClient Unit where
  postSizes _ _ := (.error "Connection refused", ())
  fromHex _ := .error "Invalid character encountered"

theorem prefetchHeaders_agrees_iff (oids : List ObjectId) :
    (∀ (ω : Type) (client : GvfsClient ω) (G : Gix ω) (s : Store ω),
      Ensures (.anyone _) (prefetchHeaders client G oids) s
        fun probes _ => RepeatsAgree oids probes) ↔
    oids.Nodup := by
  constructor
  · intro agrees
    by_contra twice
    have asks : oids.isEmpty = false := by
      rw [List.isEmpty_eq_false_iff]
      intro none
      exact twice (none ▸ List.nodup_nil)
    have ran : (prefetchHeaders noServer fullGix oids).alone (.open ()) =
        some (reorderProbes oids (insertAll .present oids ∅), .open ()) := by
      unfold prefetchHeaders
      simp [asks, partitionSizes_full]
    have answer := (agrees Unit noServer fullGix (.open ())).alone trivial ran
    rw [reorderProbes_eq] at answer
    refine handOut_disagrees twice (fun oid member => ?_) answer
    exact ⟨_, lookup_insertAll _ (.inl member), by simp [HeaderProbe.outcome]⟩
  · intro distinct ω client G s
    exact (prefetchHeaders_reassembles oids s).mono fun _ _ _ _ reassembled =>
      reassembled.agree_of_nodup distinct

end ProjgitGvfs

namespace ProjgitDaemon
open ProjgitStore ProjgitGitCli HandOut Interleave
variable {ω : Type} {wire : Wire}

namespace DaemonFetcher

theorem takeProbes_eq (oids : List ObjectId) (found : Probes) :
    takeProbes oids found = handOut (fun oid =>
      .error oid (.backend oid "daemon omitted probe for this OID")) oids found := by
  induction oids generalizing found with
  | nil => rfl
  | cons oid rest ih => simp [takeProbes, handOut, ih]

theorem orInsert_filed {found : Probes} (filed : Filed HeaderProbe.oid found) {oid : ObjectId}
    {p : HeaderProbe} (named : p.oid = oid) : Filed HeaderProbe.oid (orInsert found oid p) := by
  unfold orInsert
  split
  · exact filed
  · exact filed.insert named

theorem mergeOne_filed {found : Probes} (filed : Filed HeaderProbe.oid found)
    (probe : HeaderProbeWire) : Filed HeaderProbe.oid (mergeOne wire found probe) := by
  cases probe with
  | present oid =>
    simp only [mergeOne]
    split
    · exact orInsert_filed filed rfl
    · exact filed
  | presentWithHeader oid objectKind size =>
    simp only [mergeOne]
    split
    · exact orInsert_filed filed rfl
    · exact filed
  | headerOnly oid objectKind size =>
    simp only [mergeOne]
    split
    · exact orInsert_filed filed rfl
    · exact filed
  | error oid code message =>
    simp only [mergeOne]
    split
    · exact orInsert_filed filed rfl
    · exact filed

theorem mergeProbes_reassembles (oids : List ObjectId) (probes : List HeaderProbeWire) :
    Reassembles oids (mergeProbes wire oids probes) := by
  have filed : ∀ found : Probes, Filed HeaderProbe.oid found →
      Filed HeaderProbe.oid (probes.foldl (mergeOne wire) found) := by
    induction probes with
    | nil => exact fun _ filed => filed
    | cons probe rest ih => exact fun found filed => ih _ (mergeOne_filed filed probe)
  exact ⟨_, _, filed ∅ filed_empty, takeProbes_eq oids _⟩

theorem askMany_agrees (request : List String → Request) (name : String) {oids : List ObjectId}
    (distinct : oids.Nodup) (s : Daemon ω) :
    Ensures (.anyone _) (askMany wire request name oids) s
      fun probes _ => RepeatsAgree oids probes := by
  unfold askMany
  split
  · rename_i none
    rw [List.isEmpty_iff.mp none]
    exact ensures_ret fun _ _ _ => ⟨rfl, by simp⟩
  · apply (ensures_anyone _ s).bind
    intro answer t _ _ _
    split
    · rename_i probes
      exact ensures_ret fun _ _ _ => (mergeProbes_reassembles oids probes).agree_of_nodup distinct
    · exact ensures_ret fun _ _ _ => failures_agree _ oids
    · exact ensures_ret fun _ _ _ => failures_agree _ oids
    · exact ensures_ret fun _ _ _ => failures_agree _ oids

/-- Of a response that lists an id, the first probe stays. -/
theorem merge_present {oids : List ObjectId} {oid : ObjectId} {found : Probes}
    (fine : ∀ o p, found.lookup o = some p → p = .present o)
    (listed : oid ∈ oids ∨ found.lookup oid = some (.present oid)) :
    ((oids.map fun o => HeaderProbeWire.present o.toHex).foldl (mergeOne cloneWire) found).lookup
      oid = some (.present oid) := by
  induction oids generalizing found with
  | nil => exact listed.resolve_left List.not_mem_nil
  | cons o rest ih =>
    have step : mergeOne cloneWire found (.present o.toHex) = orInsert found o (.present o) := by
      simp [mergeOne, cloneWire_reads]
    simp only [List.map_cons, List.foldl_cons, step, orInsert]
    split
    · rename_i already
      refine ih fine ?_
      by_cases same : oid = o
      · obtain ⟨p, here⟩ := Option.isSome_iff_exists.mp already
        exact .inr (same ▸ fine o p here ▸ here)
      · exact listed.imp_left fun member => (List.mem_cons.mp member).resolve_left same
    · refine ih (fun o' p here => ?_) ?_
      · by_cases same : o' = o
        · subst same
          simpa using here.symm
        · rw [AList.lookup_insert_ne same] at here
          exact fine o' p here
      · by_cases same : oid = o
        · subst same
          exact .inr (by simp)
        · rw [AList.lookup_insert_ne same]
          exact listed.imp_left fun member => (List.mem_cons.mp member).resolve_left same

theorem askMany_disagrees (request : List String → Request) (name : String) {oids : List ObjectId}
    (twice : ¬ oids.Nodup) (s : Daemon Unit) :
    ¬ Ensures (.anyone _) (askMany cloneWire request name oids) s
      fun probes _ => RepeatsAgree oids probes := by
  intro agrees
  have asks : oids.isEmpty = false := by
    rw [List.isEmpty_eq_false_iff]
    intro none
    exact twice (none ▸ List.nodup_nil)
  -- The request is sent from `s`; when the answer is read, the daemon has answered it.
  let response : Response := .headerProbes (oids.map fun o => .present o.toHex)
  let answered : Daemon Unit := { s with
    connections := s.connections ++ [⟨request (oids.map ObjectId.toHex), .answered response⟩] }
  unfold askMany at agrees
  simp only [asks, Bool.false_eq_true, if_false] at agrees
  obtain ⟨-, -, waiting⟩ := agrees s trivial trivial _ _ rfl
  obtain ⟨-, -, got⟩ := waiting answered trivial trivial (.ok response) answered
    (by simp [answered])
  have answer := got s trivial trivial
  rw [mergeProbes, takeProbes_eq] at answer
  refine handOut_disagrees twice (fun oid member => ?_) answer
  refine ⟨_, merge_present ?_ (.inl member), by simp [HeaderProbe.outcome]⟩
  intro o p here
  simp at here

theorem askMany_agrees_iff (request : List String → Request) (name : String)
    (oids : List ObjectId) :
    (∀ (ω : Type) (wire : Wire) (s : Daemon ω), Ensures (.anyone _) (askMany wire request name oids) s
      fun probes _ => RepeatsAgree oids probes) ↔ oids.Nodup := by
  constructor
  · intro agrees
    by_contra twice
    exact askMany_disagrees request name twice _
      (agrees Unit cloneWire (.attached .noop 1 (.open ()) fun _ => .open ()))
  · intro distinct ω wire s
    exact askMany_agrees request name distinct s

end DaemonFetcher

/-- Every fetcher answers repeated ids alike, for every upstream outcome and every
    interleaving, exactly when no id is repeated. -/
theorem repeated_answers_iff_nodup (oids : List ObjectId) :
    ((∀ (ω : Type) (cat : CatFile ω) (G : Gix ω) (s : GitCli ω), Ensures (.anyone _)
      (ProjgitGitCli.prefetchHeaders cat G oids) s fun probes _ => RepeatsAgree oids probes) ↔
        oids.Nodup) ∧
    ((∀ (ω : Type) (client : ProjgitGvfs.GvfsClient ω) (G : Gix ω) (s : Store ω),
      Ensures (.anyone _) (ProjgitGvfs.prefetchHeaders client G oids) s
        fun probes _ => RepeatsAgree oids probes) ↔ oids.Nodup) ∧
    ((∀ (ω : Type) (wire : Wire) (s : Daemon ω), Ensures (.anyone _)
      (DaemonFetcher.prefetchHeaders wire oids) s fun probes _ => RepeatsAgree oids probes) ↔
        oids.Nodup) ∧
    ((∀ (ω : Type) (wire : Wire) (s : Daemon ω), Ensures (.anyone _)
      (DaemonFetcher.fetchObjects wire oids) s fun probes _ => RepeatsAgree oids probes) ↔
        oids.Nodup) :=
  ⟨ProjgitGitCli.prefetchHeaders_agrees_iff oids, ProjgitGvfs.prefetchHeaders_agrees_iff oids,
    DaemonFetcher.askMany_agrees_iff _ _ oids, DaemonFetcher.askMany_agrees_iff _ _ oids⟩

/-- Two copies of a resident blob: one `Present`, one error. -/
theorem resident_twice_disagrees :
    ∃ probes t, (ProjgitGitCli.prefetchHeaders noChild fullGix [fixtureId 7, fixtureId 7]).alone
        (.open 1 (.open ())) = some (probes, t) ∧
      probes = [.present (fixtureId 7), .error (fixtureId 7)
        (.backend (fixtureId 7) "prefetch_headers: missing result")] ∧
      ¬ RepeatsAgree [fixtureId 7, fixtureId 7] probes := by
  refine ⟨_, _, prefetchHeaders_full (by simp) _, by decide +kernel, fun agrees => ?_⟩
  have same := agrees.agree 0 1 (fixtureId 7) _ _ rfl rfl rfl rfl
  revert same
  decide +kernel

end ProjgitDaemon
