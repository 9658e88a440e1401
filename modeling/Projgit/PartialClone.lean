import Projgit.BareReads
import Projgit.MergedMount

/-!
A mount over a partial clone, with a fetcher that can supply what is absent. Reads that
go through the hydrating store answer as on a full clone. The path resolution behind
`lookup` and the listing of the root read trees from the bare store instead: a call
answers as on a full clone exactly when the trees its resolution reads are resident.
-/
namespace ProjgitServing
open Utf8Bytes SlashPath ProjgitStore ProjgitProjection ProjgitFs ProjgitMerged Stateful LabelledRuns

section Supply
variable {ω : Type} {G : Gix ω} {u : Universe ω} {w₀ : ω} {F : Fetcher (StateM (Store ω))}
  {store : Store ω}

def Supplies (u : Universe ω) (F : Fetcher (StateM (Store ω))) : Prop :=
  ∀ oid, (u.object oid).isSome → ∀ store, Gives (F.fetchObject oid).run store fun r _ => r = .ok ()

def Partly (G : Gix ω) (u : Universe ω) (w₀ : ω) (store : Store ω) : Prop :=
  Truthful G u (fun _ => True) store ∧ u.Grows w₀ store.world

theorem Partly.extends_ (partly : Partly G u w₀ store) {after : Store ω}
    (extends_ : Extends G u store after) : Partly G u w₀ after :=
  ⟨extends_.truthful _ partly.1, fun oid resident => extends_.grows oid (partly.2 oid resident)⟩

theorem Partly.kept (partly : Partly G u w₀ store) {after : Store ω}
    (kept : Kept G u (fun _ => True) store after) : Partly G u w₀ after :=
  ⟨kept.truthful, kept.world ▸ partly.2⟩

/-- A read of the bare store: of what is resident or, for a header, of what was published. -/
def PlainRead {α : Type} (G : Gix ω) (u : Universe ω) (w₀ : ω) (oid : ObjectId)
    (uncached : Option Object → Except ObjectStoreError α)
    (read : ObjectId → ExceptT ObjectStoreError (StateM (Store ω)) α) : Prop :=
  ∀ store, Partly G u w₀ store → Gives (read oid).run store fun r after =>
    Partly G u w₀ after ∧ after.world = store.world ∧
      (r = uncached (u.found store.world oid) ∨ ∃ a, r = .ok a ∧ uncached (u.object oid) = .ok a)

theorem readBlob_plain (answers : G.Answers u) (oid : ObjectId) :
    PlainRead G u w₀ oid (blobOf oid) (ObjectStore.readBlob G) := by
  intro store partly
  exact (readBlob_gives answers partly.1 oid).mono fun r after given =>
    ⟨partly.kept given.2, given.2.world, Or.inl given.1⟩

theorem readTree_plain (answers : G.Answers u) (oid : ObjectId) :
    PlainRead G u w₀ oid (treeOf G oid) (ObjectStore.readTree G) := by
  intro store partly
  exact (ProjgitStore.readTree_gives answers partly.1 oid).mono fun r after given =>
    ⟨partly.kept given.2, given.2.world, Or.inl given.1⟩

theorem header_plain (answers : G.Answers u) (oid : ObjectId) :
    PlainRead G u w₀ oid (headerOf oid) (ObjectStore.header G) := by
  intro store partly
  apply (header_gives answers partly.1 oid).mono
  rintro r after ⟨kept, plain | ⟨-, probe⟩⟩
  · exact ⟨partly.kept kept, kept.world, Or.inl plain⟩
  · exact ⟨partly.kept kept, kept.world, Or.inr probe⟩

def Obtainable (u : Universe ω) (F : Fetcher (StateM (Store ω))) (w : ω) (oid : ObjectId) : Prop :=
  u.resident w oid = true ∨ ∀ store, Gives (F.fetchObject oid).run store fun r _ => r = .ok ()

/-- Through the hydrating store an obtainable object is as good as resident. -/
theorem obtained_read {α : Type} {oid : ObjectId}
    {uncached : Option Object → Except ObjectStoreError α} (readOf : ReadOf oid uncached)
    {read : ObjectId → ExceptT ObjectStoreError (StateM (Store ω)) α}
    (honest : Honest G u F) (obtainable : Obtainable u F store.world oid)
    (plain : PlainRead G u w₀ oid uncached read) (partly : Partly G u w₀ store) :
    Gives (HydratingObjectStore.hydrateOnMiss ⟨G.handle, F⟩ read oid).run store fun r after =>
      Partly G u w₀ after ∧ r = (uncached (u.object oid)).mapError .store := by
  rw [gives_hydrateOnMiss]
  apply (plain store partly).mono
  intro r t given
  obtain ⟨partlyT, world, answer⟩ := given
  by_cases there : missed r = false
  · simp only [there, Bool.false_eq_true, if_false]
    refine ⟨partlyT, ?_⟩
    rcases answer with found | ⟨a, rfl, same⟩
    · by_cases resident : u.resident store.world oid = true
      · rw [found, found_of_resident resident]
      · have absent : u.resident store.world oid = false := by simpa using resident
        rw [found, readOf.missing absent] at there
        cases there
    · rw [same]
  · have miss : missed r = true := by simpa using there
    have supplied : ∀ t, Gives (F.fetchObject oid).run t fun r _ => r = .ok () := by
      rcases obtainable with resident | supplied
      · rcases answer with found | ⟨a, rfl, -⟩
        · rw [found, found_of_resident resident, readOf.resident resident] at miss
          cases miss
        · cases miss
      · exact supplied
    simp only [miss, if_true]
    apply ((honest.object oid t).and (supplied t)).mono
    intro _ after given
    obtain ⟨⟨extends_, lands⟩, rfl⟩ := given
    have landed := lands rfl
    apply (plain after (partlyT.extends_ extends_)).mono
    intro again final given
    obtain ⟨partlyFinal, -, reread⟩ := given
    have value : again = uncached (u.object oid) := by
      rcases reread with found | ⟨a, rfl, same⟩
      · rw [found, found_of_resident landed]
      · rw [same]
    have thereAgain : missed again = false := value ▸ readOf.resident landed
    exact ⟨partlyFinal, by rw [mapError_there thereAgain, value]⟩

theorem supplied_read {α : Type} {oid : ObjectId}
    {uncached : Option Object → Except ObjectStoreError α} (readOf : ReadOf oid uncached)
    {read : ObjectId → ExceptT ObjectStoreError (StateM (Store ω)) α}
    (honest : Honest G u F) (supplies : Supplies u F) (known : (u.object oid).isSome)
    (plain : PlainRead G u w₀ oid uncached read) (partly : Partly G u w₀ store) :
    Gives (HydratingObjectStore.hydrateOnMiss ⟨G.handle, F⟩ read oid).run store fun r after =>
      Partly G u w₀ after ∧ r = (uncached (u.object oid)).mapError .store :=
  obtained_read readOf honest (Or.inr (supplies oid known)) plain partly

/-- Whether or not the object can be had, what a hydrating read answers is true. -/
theorem sound_read {α : Type} {oid : ObjectId}
    {uncached : Option Object → Except ObjectStoreError α} (readOf : ReadOf oid uncached)
    {read : ObjectId → ExceptT ObjectStoreError (StateM (Store ω)) α}
    (honest : Honest G u F) (plain : PlainRead G u w₀ oid uncached read)
    (partly : Partly G u w₀ store) :
    Gives (HydratingObjectStore.hydrateOnMiss ⟨G.handle, F⟩ read oid).run store fun r after =>
      Partly G u w₀ after ∧ ∀ a, r = .ok a → uncached (u.object oid) = .ok a := by
  have sure : ∀ (w : ω) (r : Except ObjectStoreError α),
      (r = uncached (u.found w oid) ∨ ∃ a, r = .ok a ∧ uncached (u.object oid) = .ok a) →
      ∀ a, r = .ok a → uncached (u.object oid) = .ok a := by
    rintro w r answer a rfl
    rcases answer with found | ⟨b, returned, same⟩
    · by_cases resident : u.resident w oid = true
      · rw [found, found_of_resident resident]
      · have absent : u.found w oid = none := by simp [Universe.found, resident]
        rw [absent, readOf.absent] at found
        cases found
    · cases returned
      exact same
  rw [gives_hydrateOnMiss]
  apply (plain store partly).mono
  intro r t given
  obtain ⟨partlyT, world, answer⟩ := given
  by_cases miss : missed r = true
  · simp only [miss, if_true]
    apply (honest.object oid t).mono
    intro fetched after given
    have partlyAfter := partlyT.extends_ given.1
    cases fetched with
    | error e =>
      refine ⟨partlyAfter, fun a returned => ?_⟩
      cases returned
    | ok _ =>
      apply (plain after partlyAfter).mono
      intro again final given
      obtain ⟨partlyFinal, -, reread⟩ := given
      refine ⟨partlyFinal, fun a returned => ?_⟩
      cases again with
      | error e => cases returned
      | ok b =>
        cases returned
        exact sure _ _ reread a rfl
  · simp only [miss, Bool.false_eq_true, if_false]
    refine ⟨partlyT, fun a returned => ?_⟩
    cases r with
    | error e => cases returned
    | ok b =>
      cases returned
      exact sure _ _ answer a rfl

theorem served_read {α : Type} {oid : ObjectId}
    {uncached : Option Object → Except ObjectStoreError α} (readOf : ReadOf oid uncached)
    {read : ObjectId → ExceptT ObjectStoreError (StateM (Store ω)) α}
    (honest : Honest G u F) (plain : PlainRead G u w₀ oid uncached read)
    (partly : Partly G u w₀ store) :
    Gives (HydratingObjectStore.hydrateOnMiss ⟨G.handle, F⟩ read oid).run store fun r after =>
      Partly G u w₀ after ∧ (Obtainable u F store.world oid →
        (uncached (u.object oid)).toBool = true → r.toBool = true) := by
  have obtained := gives_when fun obtainable =>
    obtained_read readOf honest obtainable plain partly
  apply ((sound_read readOf honest plain partly).and obtained).mono
  rintro r after ⟨⟨partlyT, -⟩, value⟩
  refine ⟨partlyT, fun obtainable there => ?_⟩
  rw [(value obtainable).2]
  cases found : uncached (u.object oid) with
  | error e =>
    rw [found] at there
    cases there
  | ok a => rfl

theorem publishProbe_partly (answers : G.Answers u) {p : HeaderProbe} (true_ : TrueProbe u p) :
    Keeps (Partly G u w₀) (HydratingObjectStore.publishProbe ⟨G.handle, F⟩ p) := by
  intro store partly
  have put : ∀ h, p.carried = some h → Partly G u w₀ (store.putHeader p.oid h).2 :=
    fun h carried => partly.kept (putHeader_kept ⟨partly.1, rfl⟩ (true_ h carried) (Or.inr trivial))
  cases p with
  | present oid => exact (header_plain answers oid store partly).1
  | presentWithHeader oid kind size => exact put _ rfl
  | headerOnly oid kind size => exact put _ rfl
  | error oid e => exact partly

theorem publishProbes_partly (answers : G.Answers u) {probes : List HeaderProbe}
    (all_true : ∀ p ∈ probes, TrueProbe u p) :
    Keeps (Partly G u w₀) (HydratingObjectStore.publishProbes ⟨G.handle, F⟩ probes) := by
  induction probes with
  | nil => exact keeps_pure _ ()
  | cons p rest ih =>
    exact keeps_bind (publishProbe_partly answers (all_true p (by simp))) fun _ =>
      ih fun other among => all_true other (List.mem_cons_of_mem _ among)

theorem batch_partly (answers : G.Answers u) {absent : ObjectId → StateM (Store ω) Bool}
    (keeps : ∀ oid, Keeps (Partly G u w₀) (absent oid))
    {ask : List ObjectId → StateM (Store ω) (List HeaderProbe)}
    (asks : ∀ oids store, Gives (ask oids) store fun probes after =>
      Extends G u store after ∧ ∀ p ∈ probes, TrueProbe u p) (oids : List ObjectId) :
    Keeps (Partly G u w₀) (HydratingObjectStore.batch ⟨G.handle, F⟩ absent ask oids) := by
  refine keeps_bind (pending_keeps keeps oids) fun query => ?_
  by_cases empty : query.isEmpty = true
  · simp only [empty, if_true]
    exact keeps_pure _ _
  · simp only [empty, Bool.false_eq_true, if_false]
    intro store partly
    rw [gives_bind]
    apply (asks query store).mono
    intro probes after given
    obtain ⟨extends_, all_true⟩ := given
    exact publishProbes_partly answers all_true after (partly.extends_ extends_)

theorem prefetchHeaders_partly (answers : G.Answers u) (honest : Honest G u F)
    (oids : List ObjectId) :
    Keeps (Partly G u w₀) (HydratingObjectStore.prefetchHeaders ⟨G.handle, F⟩ oids) :=
  batch_partly answers (fun oid => keeps_bind
    (fun store partly => (header_plain answers oid store partly).1) fun _ => keeps_pure _ _)
    honest.headers oids

theorem fetchObjects_partly (answers : G.Answers u) (honest : Honest G u F)
    (oids : List ObjectId) :
    Keeps (Partly G u w₀) (HydratingObjectStore.fetchObjects ⟨G.handle, F⟩ oids) := by
  unfold HydratingObjectStore.fetchObjects
  by_cases empty : oids.isEmpty = true
  · simp only [empty, if_true]
    exact keeps_pure _ _
  · simp only [empty, Bool.false_eq_true, if_false]
    refine batch_partly answers (fun oid => ?_) honest.objects oids
    intro store partly
    exact partly

end Supply

section Worker
variable {ω : Type} {M : Mount ω} {u : Universe ω} {w₀ : ω}

theorem warmHeaders_partly (answers : M.gix.Answers u) (honest : Honest M.gix u M.fetcher)
    (pieces : List (List ObjectId)) : Keeps (Partly M.gix u w₀) (Worker.warmHeaders M pieces) := by
  induction pieces with
  | nil => exact keeps_pure _ ()
  | cons chunk rest ih =>
    exact keeps_bind (prefetchHeaders_partly answers honest chunk) fun _ => ih

theorem blobsUnderCap_partly (answers : M.gix.Answers u) (oids : List ObjectId) :
    Keeps (Partly M.gix u w₀) (Worker.blobsUnderCap M oids) := by
  induction oids with
  | nil => exact keeps_pure _ _
  | cons oid rest ih =>
    exact keeps_bind (fun store partly => (header_plain answers oid store partly).1) fun _ =>
      keeps_bind ih fun _ => keeps_pure _ _

theorem warmBlobs_partly (answers : M.gix.Answers u) (honest : Honest M.gix u M.fetcher)
    (pieces : List (List ObjectId)) : Keeps (Partly M.gix u w₀) (Worker.warmBlobs M pieces) := by
  induction pieces with
  | nil => exact keeps_pure _ ()
  | cons chunk rest ih =>
    unfold Worker.warmBlobs
    refine keeps_bind (blobsUnderCap_partly answers chunk) fun keep => ?_
    by_cases empty : keep.isEmpty = true
    · simp only [empty, if_true]
      exact ih
    · simp only [empty, Bool.false_eq_true, if_false]
      exact keeps_bind (fetchObjects_partly answers honest keep) fun _ => ih

end Worker
variable {ω : Type}

theorem short_found (G : Gix ω) (u : Universe ω) (w : ω) {projection : Projection}
    {refs whole : Bytes → Except String ObjectId}
    (agree : ∀ name, projection = .ref name → refs name = whole name) :
    Short (G.uncached (u.found w) refs) (G.uncached u.object whole)
      (fun oid => u.resident w oid = true) projection where
  tree oid resident := by
    change treeOf G oid (u.found w oid) = treeOf G oid (u.object oid)
    rw [found_of_resident resident]
  absent oid absent := by
    change treeOf G oid (u.found w oid) = _
    have gone : u.found w oid = none := by simp [Universe.found, absent]
    rw [gone]
    rfl
  commit oid resident := by
    change commitTreeOf G oid (u.found w oid) = commitTreeOf G oid (u.object oid)
    rw [found_of_resident resident]
  refs name isRef := by
    change (refs name).mapError ObjectStoreError.backend =
      (whole name).mapError ObjectStoreError.backend
    rw [agree name isRef]

def onWorld (s : FsState ω) (w : ω) : FsState ω := { s with store := { s.store with world := w } }

/-- A mount over a clone whose commit `c` is resident, beside the world `full` in which
    everything is. What is fetched moves no ref. -/
structure Clone (M : Mount ω) (u : Universe ω) (w₀ full : ω) (c root : ObjectId) : Prop where
  whole : Setting M u full root
  honest : Honest M.gix u M.fetcher
  supplies : Supplies u M.fetcher
  resolves : resolveAt M.gix full M.projection = .ok c
  refs : ∀ w, u.Grows w₀ w → ∀ name, M.projection = .ref name →
    M.gix.findReference w name = M.gix.findReference full name
  commit : u.resident w₀ c = true

abbrev Clone.full (_ : Clone M u w₀ w c root) : StoreHandle Id :=
  M.gix.uncached u.object (M.gix.findReference w)

/-- Names are asked for one component at a time; the resident set may grow. -/
def Growing (u : Universe ω) (s : FsState ω) : FsAction ω → Prop
  | .lookup _ name => ProperName name
  | .world w => u.Grows s.store.world w
  | _ => True

namespace Clone
variable {M : Mount ω} {u : Universe ω} {w₀ full w : ω} {c root : ObjectId} {id : UInt64}
  {keys : List (Bytes × ResolvedEntry)} {s t : FsState ω} {store : Store ω}

abbrev tree (_ : Clone M u w₀ full c root) : Merged := mergedOf M.gix u M.overlay root

theorem short (clone : Clone M u w₀ full c root) (grows : u.Grows w₀ w) :
    Short (M.gix.uncached (u.found w) (M.gix.findReference w)) clone.full
      (fun oid => u.resident w oid = true) M.projection :=
  short_found M.gix u w fun name isRef => clone.refs w grows name isRef

theorem grows_full (clone : Clone M u w₀ full c root) (w : ω) : u.Grows w full :=
  fun oid resident => clone.whole.allLocal oid (u.known w oid resident)

theorem starts (clone : Clone M u w₀ full c root) : startsAt clone.full M.projection c := by
  have resolved := clone.resolves
  unfold startsAt
  cases projection : M.projection with
  | ref name =>
    rw [projection] at resolved
    exact resolved
  | commit oid =>
    rw [projection] at resolved
    cases resolved
    rfl
  | subtree oid path =>
    rw [projection] at resolved
    cases resolved
    rfl

theorem simulates (clone : Clone M u w₀ full c root) (w : ω) :
    Simulates (At M.gix u (fun _ => True) w) M.bare
      (M.gix.uncached (u.found w) (M.gix.findReference w)) :=
  ⟨readTree_returns clone.whole.answers w, commitTree_returns clone.whole.answers w,
    resolveRef_returns w⟩

/-- A resolution over the bare store that simulates a pure one, which follows the one on the
    full clone. -/
theorem bare_of_follows {α : Type} (partly : Partly M.gix u w₀ store) {reads : List ObjectId}
    {x : ExceptT ProjectionError (StateM (Store ω)) α} {local_ whole : ExceptT ProjectionError Id α}
    (returns : Returns (At M.gix u (fun _ => True) store.world) x local_)
    (follows : Follows (fun oid => u.resident store.world oid = true) reads local_ whole) :
    Gives x.run store fun r after => Partly M.gix u w₀ after ∧
      ((∀ oid ∈ reads, u.resident store.world oid = true) → r = whole.run.run) ∧
      ((∃ oid ∈ reads, ¬ u.resident store.world oid = true) →
        ∃ oid, r = .error (.store (.missingObject oid))) := by
  refine (returns store ⟨partly.1, rfl⟩).mono ?_
  intro r after given
  obtain ⟨value, truthful, world⟩ := given
  refine ⟨⟨truthful, world ▸ partly.2⟩, fun all => ?_, fun some_ => ?_⟩
  · rw [value, follows.1 all]
  · obtain ⟨oid, thrown⟩ := follows.2 some_
    exact ⟨oid, by rw [value, thrown]; rfl⟩

theorem lookup_bare (clone : Clone M u w₀ full c root) (partly : Partly M.gix u w₀ store)
    (path : Bytes) :
    Gives (M.projection.lookup M.bare M.overlay path).run store fun r after =>
      Partly M.gix u w₀ after ∧
      ((∀ oid ∈ lookupReads clone.full M.projection M.overlay path,
          u.resident store.world oid = true) →
        r = (M.projection.lookup clone.full M.overlay path).run.run) ∧
      ((∃ oid ∈ lookupReads clone.full M.projection M.overlay path,
          ¬ u.resident store.world oid = true) →
        ∃ oid, r = .error (.store (.missingObject oid))) :=
  bare_of_follows partly
    (lookup_returns (clone.simulates store.world) M.projection M.overlay path)
    (lookup_follows (clone.short partly.2) clone.starts (partly.2 c clone.commit) M.overlay path)

theorem readRoot_bare (clone : Clone M u w₀ full c root) (partly : Partly M.gix u w₀ store) :
    Gives (M.projection.readRoot M.bare M.overlay).run store fun r after =>
      Partly M.gix u w₀ after ∧
      ((∀ oid ∈ listingReads clone.full M.projection, u.resident store.world oid = true) →
        r = (M.projection.readRoot clone.full M.overlay).run.run) ∧
      ((∃ oid ∈ listingReads clone.full M.projection, ¬ u.resident store.world oid = true) →
        ∃ oid, r = .error (.store (.missingObject oid))) :=
  bare_of_follows partly (readRoot_returns (clone.simulates store.world) M.projection M.overlay)
    (readRoot_follows (clone.short partly.2) clone.starts (partly.2 c clone.commit) M.overlay)

structure Intact (clone : Clone M u w₀ full c root) (id : UInt64)
    (keys : List (Bytes × ResolvedEntry)) (s : FsState ω) : Prop where
  serves : Serves M clone.tree id keys s
  store : Partly M.gix u w₀ s.store

variable {clone : Clone M u w₀ full c root} {i : UInt64} {path : List Bytes} {node : Node}
  {name : Bytes}

theorem at_full (clone : Clone M u w₀ full c root) (partly : Partly M.gix u w₀ store) :
    At M.gix u nothing full { store with world := full } := by
  have grown := truthful_world partly.1 (clone.grows_full store.world)
  refine ⟨{ grown with headers := fun oid h hit => ?_ }, rfl⟩
  obtain ⟨told, -⟩ := grown.headers oid h hit
  refine ⟨told, Or.inl (clone.whole.allLocal oid ?_)⟩
  cases object : u.object oid with
  | none => simp [object, headerOf] at told
  | some obj => rfl

theorem Intact.whole (intact : clone.Intact id keys s) :
    Serves M clone.tree id keys (onWorld s full) :=
  intact.serves.of_attrs rfl rfl

theorem backed_blob (clone : Clone M u w₀ full c root) {e : TreeEntry}
    (reached : clone.tree.descend .root path = .ok (.entry (.tree e))) (needs : needsHeader e) :
    ∃ bytes, u.object e.oid = some ⟨.blob, bytes⟩ := by
  obtain ⟨es, tree⟩ := clone.whole.rootTree
  have backed := reached_backed clone.whole.backed tree reached
  rcases needs with mode | mode | mode <;> (rw [mode] at backed; exact backed)

theorem sized (clone : Clone M u w₀ full c root) {e : TreeEntry}
    (reached : clone.tree.descend .root path = .ok (.entry (.tree e))) (needs : needsHeader e) :
    Sized M clone.tree (Partly M.gix u w₀) e.oid := by
  obtain ⟨bytes, object⟩ := clone.backed_blob reached needs
  intro before partly
  refine (supplied_read (headerOf_readOf e.oid) clone.honest clone.supplies (by simp [object])
    (header_plain clone.whole.answers e.oid) partly).mono ?_
  intro r after given
  obtain ⟨kept, value⟩ := given
  refine ⟨⟨.blob, ?_⟩, kept⟩
  rw [value, object, mergedOf_blobs object]
  rfl

theorem readTree_supplied (clone : Clone M u w₀ full c root) (partly : Partly M.gix u w₀ store)
    {oid : ObjectId} {es : List RawTreeEntry} (tree : treeOf M.gix oid (u.object oid) = .ok es) :
    Gives (M.hydrating.readTree oid).run store fun r after =>
      Partly M.gix u w₀ after ∧ r = .ok (clone.tree.trees oid) := by
  have known : (u.object oid).isSome := by
    cases object : u.object oid with
    | none => simp [object, treeOf, ofKind, Except.bind] at tree
    | some obj => rfl
  refine (supplied_read (treeOf_readOf M.gix oid) clone.honest clone.supplies known
    (readTree_plain clone.whole.answers oid) partly).mono ?_
  intro r after given
  obtain ⟨kept, value⟩ := given
  exact ⟨kept, by rw [value, tree, mergedOf_trees tree]; rfl⟩

theorem readBlob_supplied (clone : Clone M u w₀ full c root) (partly : Partly M.gix u w₀ store)
    {oid : ObjectId} {bytes : Bytes} (object : u.object oid = some ⟨.blob, bytes⟩) :
    Gives (M.hydrating.readBlob oid).run store fun r after =>
      Partly M.gix u w₀ after ∧ r = .ok (clone.tree.blobs oid) := by
  refine (supplied_read (blobOf_readOf oid) clone.honest clone.supplies (by simp [object])
    (readBlob_plain clone.whole.answers oid) partly).mono ?_
  intro r after given
  obtain ⟨kept, value⟩ := given
  exact ⟨kept, by rw [value, object, mergedOf_blobs object]; rfl⟩

/-- The trees a lookup below the node reads from the bare store are resident. -/
def Local (clone : Clone M u w₀ full c root) (w : ω) (path : List Bytes) (node : Node)
    (name : Bytes) : Prop :=
  node.walkable = true → ∀ oid ∈ lookupReads clone.full M.projection M.overlay
    (join (path ++ [fromUtf8Lossy name])), u.resident w oid = true

def expected (M : Mount ω) (T : Merged) (id : UInt64) (path : List Bytes) (node : Node)
    (name : Bytes) : Except FsError Attr :=
  (T.child node (fromUtf8Lossy name)).map fun found =>
    attrAt M T id (path ++ [fromUtf8Lossy name]) (.entry found)

theorem expected_not_io {T : Merged} (message : String) :
    expected M T id path node name ≠ .error (.io message) := by
  unfold expected Merged.child
  cases T.children node with
  | none => simp [Except.map]
  | some listed => cases found : listed.lookup (fromUtf8Lossy name) <;> simp [found, Except.map]

theorem expected_of_answer {T : Merged} {r : Except FsError Attr} {quiet : Prop}
    {published : ResolvedEntry → Prop}
    (answer : match T.child node (fromUtf8Lossy name) with
      | .error e => r = .error e ∧ quiet
      | .ok found => r = .ok (attrAt M T id (path ++ [fromUtf8Lossy name]) (.entry found)) ∧
        published found) : r = expected M T id path node name := by
  unfold expected
  cases child : T.child node (fromUtf8Lossy name) with
  | error e =>
    rw [child] at answer
    exact answer.1
  | ok found =>
    rw [child] at answer
    exact answer.1

theorem child_reached (held : Held M clone.tree id s i path node) {e : TreeEntry}
    (child : clone.tree.child node name = .ok (.tree e)) :
    clone.tree.descend .root (path ++ [name]) = .ok (.entry (.tree e)) := by
  rw [descend_snoc held.reached.descends, child]

theorem lookup_full (intact : clone.Intact id keys s) (held : Held M clone.tree id s i path node)
    (proper : ProperName name) :
    Gives (M.lookup i name).run (onWorld s full) fun r _ =>
      r = expected M clone.tree id path node name := by
  have opened : At M.gix u nothing full (onWorld s full).store := clone.at_full intact.store
  refine (lookup_answers (s := onWorld s full) intact.whole.projectionId opened (held.of_attrs rfl)
    ?_ fun e child => clone.whole.sized (child_reached held child)).mono fun r t => expected_of_answer
  intro walkable
  exact clone.whole.resolves opened held.reached walkable (lossy_proper proper).1

theorem resolves_local (intact : clone.Intact id keys s)
    (held : Held M clone.tree id s i path node) (proper : ProperName name)
    (local_ : clone.Local s.store.world path node name) (walkable : node.walkable = true) :
    Resolves M clone.tree (Partly M.gix u w₀) s.store path node (fromUtf8Lossy name) := by
  obtain ⟨parent, answer⟩ :=
    clone.whole.lookup_whole held.reached walkable (lossy_proper proper).1
  apply (clone.lookup_bare intact.store _).mono
  intro r after given
  obtain ⟨kept, same, -⟩ := given
  refine ⟨kept, ?_⟩
  rw [same (local_ walkable), answer]
  cases clone.tree.child node (fromUtf8Lossy name) with
  | ok found => rfl
  | error e => exact ⟨parent, rfl⟩

theorem lookup_local (intact : clone.Intact id keys s) (held : Held M clone.tree id s i path node)
    (proper : ProperName name) (local_ : clone.Local s.store.world path node name) :
    Gives (M.lookup i name).run s fun r _ => r = expected M clone.tree id path node name :=
  (lookup_answers intact.serves.projectionId intact.store held
    (resolves_local intact held proper local_)
    fun _ child => clone.sized (child_reached held child)).mono fun _ _ => expected_of_answer

theorem lookup_intact (distinct : DistinctKeys M.hasher id keys) (intact : clone.Intact id keys s)
    (held : Held M clone.tree id s i path node) (proper : ProperName name)
    (local_ : clone.Local s.store.world path node name)
    (used : ∀ key, keyOf M s (.lookup i name) = some key → key ∈ keys) :
    Gives (M.lookup i name).run s fun _ t => clone.Intact id keys t := by
  have resolves := resolves_local intact held proper local_
  refine (lookup_gives distinct intact.serves intact.store held proper resolves
    (fun _ child => clone.sized (child_reached held child))
    fun found child => used _ (keyOf_lookup held resolves child)).mono ?_
  intro r t given
  exact ⟨given.1.serves, given.1.store⟩

/-- A tree that only the fetcher has ends the lookup with `EIO`. -/
theorem lookup_missing (intact : clone.Intact id keys s) (held : Held M clone.tree id s i path node)
    (missing : ¬ clone.Local s.store.world path node name) :
    Gives (M.lookup i name).run s fun r t =>
      clone.Intact id keys t ∧ ∃ message, r = .error (.io message) := by
  obtain ⟨walkable, reads⟩ := Classical.not_imp.mp missing
  obtain ⟨oid, among, gone⟩ : ∃ oid ∈ lookupReads clone.full M.projection M.overlay
      (join (path ++ [fromUtf8Lossy name])), ¬ u.resident s.store.world oid = true := by
    simpa using reads
  unfold Mount.lookup
  rw [gives_run_bind]
  apply (parentPath_gives held).mono
  rintro r t ⟨unchanged, ⟨-, answered⟩ | ⟨closed, -⟩⟩
  · rw [answered, unchanged, sequel_ok, joinPath_join held.reached, gives_run_bind, gives_onStoreOr]
    apply (clone.lookup_bare intact.store _).mono
    intro r after given
    obtain ⟨kept, -, misses⟩ := given
    obtain ⟨other, value⟩ := misses ⟨oid, among, gone⟩
    rw [value]
    exact ⟨⟨intact.serves.of_attrs rfl rfl, kept⟩, _, rfl⟩
  · rw [walkable] at closed
    cases closed

theorem lookup_iff (intact : clone.Intact id keys s) (held : Held M clone.tree id s i path node)
    (proper : ProperName name) :
    ((M.lookup i name).run.run s).1 = ((M.lookup i name).run.run (onWorld s full)).1 ↔
      clone.Local s.store.world path node name := by
  have whole : ((M.lookup i name).run.run (onWorld s full)).1 =
      expected M clone.tree id path node name := lookup_full intact held proper
  rw [whole]
  by_cases local_ : clone.Local s.store.world path node name
  · exact iff_of_true (lookup_local intact held proper local_) local_
  · obtain ⟨-, message, failed⟩ := lookup_missing intact held local_
    have value : ((M.lookup i name).run.run s).1 = .error (.io message) := failed
    rw [value]
    exact iff_of_false (fun same => expected_not_io message same.symm) local_

def RootLocal (clone : Clone M u w₀ full c root) (w : ω) : Prop :=
  ∀ oid ∈ listingReads clone.full M.projection, u.resident w oid = true

def expectedListing (M : Mount ω) (T : Merged) (id : UInt64) (path : List Bytes) (node : Node) :
    Except FsError (List DirEntry) :=
  match T.children node with
  | none => .error .notADirectory
  | some listed => .ok (listed.map (listedAt M T id path))

theorem expectedListing_of_match {T : Merged} {r : Except FsError (List DirEntry)}
    (answer : match T.children node with
      | none => r = .error .notADirectory
      | some listed => r = .ok (listed.map (listedAt M T id path))) :
    r = expectedListing M T id path node := by
  unfold expectedListing
  cases children : T.children node with
  | none => simpa [children] using answer
  | some listed => simpa [children] using answer

theorem dir_tree (clone : Clone M u w₀ full c root) {e : TreeEntry}
    (reached : clone.tree.descend .root path = .ok (.entry (.tree e))) (mode : e.mode = .directory) :
    ∃ es, treeOf M.gix e.oid (u.object e.oid) = .ok es := by
  obtain ⟨es, tree⟩ := clone.whole.rootTree
  have backed := reached_backed clone.whole.backed tree reached
  rw [mode] at backed
  exact backed

theorem readdir_full (intact : clone.Intact id keys s) (held : Held M clone.tree id s i path node) :
    Gives (M.readdir i 0).run (onWorld s full) fun r _ =>
      r = expectedListing M clone.tree id path node := by
  have opened : At M.gix u nothing full (onWorld s full).store := clone.at_full intact.store
  refine (readdir_gives intact.whole opened (held.of_attrs rfl) ?_ ?_).mono ?_
  · intro _
    exact clone.whole.readRoot_gives opened
  · rintro e rfl mode
    obtain ⟨es, tree⟩ := clone.dir_tree held.reached.descends mode
    exact clone.whole.readTree_gives opened tree
  · intro r t given
    obtain ⟨-, answer⟩ := given
    exact expectedListing_of_match answer

theorem readdir_local (intact : clone.Intact id keys s) (held : Held M clone.tree id s i path node)
    (local_ : node = .root → clone.RootLocal s.store.world) :
    Gives (M.readdir i 0).run s fun r t =>
      clone.Intact id keys t ∧ r = expectedListing M clone.tree id path node := by
  refine (readdir_gives intact.serves intact.store held ?_ ?_).mono ?_
  · intro isRoot
    obtain ⟨listed, children, answer⟩ := clone.whole.readRoot_whole
    apply (clone.readRoot_bare intact.store).mono
    intro r after given
    obtain ⟨kept, same, -⟩ := given
    refine ⟨kept, listed, children, ?_⟩
    rw [same (local_ isRoot), answer]
    rfl
  · rintro e rfl mode
    obtain ⟨es, tree⟩ := clone.dir_tree held.reached.descends mode
    exact clone.readTree_supplied intact.store tree
  · intro r t given
    obtain ⟨lists, answer⟩ := given
    exact ⟨⟨intact.serves.of_attrs lists.attrs lists.projectionId, lists.store⟩,
      expectedListing_of_match answer⟩

theorem readdir_missing (intact : clone.Intact id keys s) (missing : ¬ clone.RootLocal s.store.world) :
    Gives (M.readdir rootInode 0).run s fun r t =>
      clone.Intact id keys t ∧ ∃ message, r = .error (.io message) := by
  obtain ⟨oid, among, gone⟩ : ∃ oid ∈ listingReads clone.full M.projection,
      ¬ u.resident s.store.world oid = true := by
    simpa [RootLocal] using missing
  unfold Mount.readdir
  simp only [Nat.lt_irrefl, if_false, if_true, gives_run_bind, gives_onStoreOr]
  apply (clone.readRoot_bare intact.store).mono
  intro r after given
  obtain ⟨kept, -, misses⟩ := given
  obtain ⟨other, value⟩ := misses ⟨oid, among, gone⟩
  rw [value]
  exact ⟨⟨intact.serves.of_attrs rfl rfl, kept⟩, _, rfl⟩

theorem readdir_iff (intact : clone.Intact id keys s) (held : Held M clone.tree id s i path node) :
    ((M.readdir i 0).run.run s).1 = ((M.readdir i 0).run.run (onWorld s full)).1 ↔
      (i = rootInode → clone.RootLocal s.store.world) := by
  have whole : ((M.readdir i 0).run.run (onWorld s full)).1 =
      expectedListing M clone.tree id path node := readdir_full intact held
  rw [whole]
  by_cases local_ : i = rootInode → clone.RootLocal s.store.world
  · refine iff_of_true (readdir_local intact held fun isRoot => local_ ?_).2 local_
    rw [held.inode, isRoot]
    rfl
  · obtain ⟨rfl, missing⟩ := Classical.not_imp.mp local_
    obtain ⟨rfl, rfl⟩ := root_of_inode held.reached held.inode.symm
    obtain ⟨-, message, failed⟩ := readdir_missing intact missing
    have value : ((M.readdir rootInode 0).run.run s).1 = .error (.io message) := failed
    rw [value]
    refine iff_of_false (fun same => ?_) local_
    cases same

theorem read_same (intact : clone.Intact id keys s) (held : Held M clone.tree id s i path node)
    (offset size : Nat) :
    clone.Intact id keys ((M.read i offset size).run.run s).2 ∧
      ((M.read i offset size).run.run s).1 =
        ((M.read i offset size).run.run (onWorld s full)).1 := by
  have opened : At M.gix u nothing full (onWorld s full).store := clone.at_full intact.store
  have blob : ∀ e, node = .entry (.tree e) → e.mode = .regularFile ∨ e.mode = .executableFile →
      ∃ bytes, u.object e.oid = some ⟨.blob, bytes⟩ := by
    rintro e rfl mode
    exact clone.backed_blob held.reached.descends (mode.imp_right Or.inl)
  obtain ⟨quiet, here⟩ := read_gives (T := clone.tree) intact.store held offset size
    fun e tree mode => (blob e tree mode).elim fun bytes object =>
      clone.readBlob_supplied intact.store object
  obtain ⟨-, there⟩ := read_gives (T := clone.tree) opened (held.of_attrs rfl) offset size
    fun e tree mode => (blob e tree mode).elim fun bytes object =>
      clone.whole.readBlob_gives opened object
  refine ⟨⟨intact.serves.quiet quiet, quiet.store⟩, ?_⟩
  cases content : clone.tree.content node with
  | none =>
    rw [content] at here there
    exact here.trans there.symm
  | some bytes =>
    rw [content] at here there
    exact here.trans there.symm

theorem readlink_same (intact : clone.Intact id keys s) (held : Held M clone.tree id s i path node) :
    clone.Intact id keys ((M.readlink i).run.run s).2 ∧
      ((M.readlink i).run.run s).1 = ((M.readlink i).run.run (onWorld s full)).1 := by
  have opened : At M.gix u nothing full (onWorld s full).store := clone.at_full intact.store
  have blob : ∀ e, node = .entry (.tree e) → e.mode = .symlink →
      ∃ bytes, u.object e.oid = some ⟨.blob, bytes⟩ := by
    rintro e rfl mode
    exact clone.backed_blob held.reached.descends (Or.inr (Or.inr mode))
  obtain ⟨quiet, here⟩ := readlink_gives (T := clone.tree) intact.store held
    fun e tree mode => (blob e tree mode).elim fun bytes object =>
      clone.readBlob_supplied intact.store object
  obtain ⟨-, there⟩ := readlink_gives (T := clone.tree) opened (held.of_attrs rfl)
    fun e tree mode => (blob e tree mode).elim fun bytes object =>
      clone.whole.readBlob_gives opened object
  refine ⟨⟨intact.serves.quiet quiet, quiet.store⟩, ?_⟩
  cases target : clone.tree.target node with
  | none =>
    rw [target] at here there
    exact here.trans there.symm
  | some bytes =>
    rw [target] at here there
    exact here.trans there.symm

theorem work_intact (intact : clone.Intact id keys s) :
    Gives (Worker.work M) s fun _ t => clone.Intact id keys t := by
  unfold Worker.work
  rw [gives_bind, gives_get]
  cases queued : s.channel with
  | nil => exact intact
  | cons task rest =>
    simp only [gives_bind, gives_modify, gives_zoom]
    have done : ∀ store, Partly M.gix u w₀ store →
        clone.Intact id keys { s with channel := rest, store := store } := fun store partly =>
      ⟨intact.serves.of_attrs rfl rfl, partly⟩
    cases task with
    | headers oids =>
      exact (warmHeaders_partly clone.whole.answers clone.honest _ s.store intact.store).mono
        fun _ => done
    | blobs oids =>
      exact (warmBlobs_partly clone.whole.answers clone.honest _ s.store intact.store).mono
        fun _ => done

theorem Intact.known (intact : clone.Intact id keys s) (i : UInt64) :
    (i ≠ rootInode ∧ s.attrs.lookup i = none) ∨ ∃ path node, Held M clone.tree id s i path node := by
  cases there : s.attrs.lookup i with
  | none =>
    refine Or.inl ⟨?_, rfl⟩
    rintro rfl
    rw [intact.serves.root] at there
    cases there
  | some snap =>
    obtain ⟨path, node, held, -⟩ := intact.serves.cached i snap there
    exact Or.inr ⟨path, node, held⟩

theorem step_intact (distinct : DistinctKeys M.hasher id keys) (s : FsState ω)
    (action : FsAction ω) (t : FsState ω) (stepped : fsStep M s action = some t)
    (allowed : Growing u s action ∧ ∀ key, keyOf M s action = some key → key ∈ keys)
    (intact : clone.Intact id keys s) : clone.Intact id keys t := by
  obtain ⟨growing, used⟩ := allowed
  have same : ∀ t : FsState ω, t = s → clone.Intact id keys t := fun t eq => eq ▸ intact
  cases action with
  | lookup parent name =>
    cases stepped
    rcases intact.known parent with ⟨inner, unknown⟩ | ⟨path, node, held⟩
    · exact same _ (lookup_unknown inner unknown name).2
    · by_cases local_ : clone.Local s.store.world path node name
      · exact lookup_intact distinct intact held growing local_ used
      · exact (lookup_missing intact held local_).1
  | getattr inode =>
    cases stepped
    exact same _ (getattr_state M s inode)
  | readdir inode offset =>
    cases stepped
    rcases Nat.eq_zero_or_pos offset with rfl | later
    · rcases intact.known inode with ⟨inner, unknown⟩ | ⟨path, node, held⟩
      · exact same _ (readdir_unknown inner unknown).2
      · by_cases local_ : node = .root → clone.RootLocal s.store.world
        · exact (readdir_local intact held local_).1
        · obtain ⟨isRoot, missing⟩ := Classical.not_imp.mp local_
          obtain rfl : inode = rootInode := by rw [held.inode, isRoot]; rfl
          exact (readdir_missing intact missing).1
    · exact same _ (readdir_later M s inode later).2
  | read inode offset size =>
    cases stepped
    rcases intact.known inode with ⟨-, unknown⟩ | ⟨path, node, held⟩
    · exact same _ (read_unknown unknown offset size).2
    · exact (read_same intact held offset size).1
  | readlink inode =>
    cases stepped
    rcases intact.known inode with ⟨-, unknown⟩ | ⟨path, node, held⟩
    · exact same _ (readlink_unknown unknown).2
    · exact (readlink_same intact held).1
  | work =>
    cases stepped
    exact work_intact intact
  | world w =>
    cases stepped
    refine ⟨intact.serves.of_attrs rfl rfl, truthful_world intact.store.1 growing, ?_⟩
    exact fun oid resident => growing oid (intact.store.2 oid resident)

theorem run_intact {start : FsState ω} {actions : List (FsAction ω)}
    (distinct : DistinctKeys M.hasher id (seen (fsStep M) (keyOf M) start actions))
    (run : exec (fsStep M) start actions = some s)
    (growing : Meets (fsStep M) (Growing u) start actions)
    (fresh : clone.Intact id (seen (fsStep M) (keyOf M) start actions) start) :
    clone.Intact id (seen (fsStep M) (keyOf M) start actions) s :=
  exec_keeps_meeting (step_intact distinct) run
    (meets_and growing (meets_seen (keyOf M) start actions)) fresh

/-- The trees that the call reads from the bare store are resident: for a lookup those
    its path resolution walks through, for a listing of the root those that lead to it. -/
def Supplied (clone : Clone M u w₀ full c root) (id : UInt64) (s : FsState ω) : FsAction ω → Prop
  | .lookup i name => ∀ path node, Held M clone.tree id s i path node →
      clone.Local s.store.world path node name
  | .readdir i offset => i = rootInode → offset = 0 → clone.RootLocal s.store.world
  | _ => True

theorem getattr_same (s : FsState ω) (i : UInt64) (w : ω) :
    ((M.getattr i).run.run s).1 = ((M.getattr i).run.run (onWorld s w)).1 := by
  have again : ∀ r, Gives (M.getattr i).run s (fun q _ => q = r) →
      Gives (M.getattr i).run (onWorld s w) (fun q _ => q = r) := by
    intro r
    unfold Mount.getattr
    by_cases isRoot : i = rootInode
    · simp only [isRoot, if_true]
      exact id
    · simp only [isRoot, if_false, gives_run_bind]
      cases there : s.attrs.lookup i with
      | none =>
        rw [gives_cachedSnapshot_none there,
          gives_cachedSnapshot_none (s := onWorld s w) there]
        exact id
      | some snap =>
        rw [gives_cachedSnapshot there, gives_cachedSnapshot (s := onWorld s w) there]
        exact id
  exact (again _ rfl).symm

theorem answer_iff (intact : clone.Intact id keys s)
    {action : FsAction ω} (growing : Growing u s action) :
    answer M s action = answer M (onWorld s full) action ↔ clone.Supplied id s action := by
  cases action with
  | lookup i name =>
    simp only [answer, Answer.attr.injEq, Supplied]
    rcases intact.known i with ⟨inner, unknown⟩ | ⟨path, node, held⟩
    · refine iff_of_true ?_ fun path node held => ?_
      · exact (lookup_unknown inner unknown name).1.trans
          (lookup_unknown (s := onWorld s full) inner unknown name).1.symm
      · rw [held.cached] at unknown
        cases unknown
    · rw [lookup_iff intact held growing]
      constructor
      · intro local_ other node' held' walkable
        obtain ⟨rfl, rfl⟩ := held.walkable_unique held' walkable
        exact local_ walkable
      · exact fun all => all path node held
  | getattr i =>
    exact iff_of_true (congrArg Answer.attr (getattr_same s i full)) trivial
  | readdir i offset =>
    simp only [answer, Answer.entries.injEq, Supplied]
    rcases Nat.eq_zero_or_pos offset with rfl | later
    · rcases intact.known i with ⟨inner, unknown⟩ | ⟨path, node, held⟩
      · refine iff_of_true ?_ fun isRoot => absurd isRoot inner
        exact (readdir_unknown inner unknown).1.trans
          (readdir_unknown (s := onWorld s full) inner unknown).1.symm
      · rw [readdir_iff intact held]
        exact ⟨fun local_ isRoot _ => local_ isRoot, fun local_ isRoot => local_ isRoot rfl⟩
    · refine iff_of_true ?_ fun _ zero => absurd zero (Nat.ne_of_gt later)
      exact (readdir_later M s i later).1.trans (readdir_later M (onWorld s full) i later).1.symm
  | read i offset size =>
    refine iff_of_true (congrArg Answer.bytes ?_) trivial
    rcases intact.known i with ⟨-, unknown⟩ | ⟨path, node, held⟩
    · exact (read_unknown unknown offset size).1.trans
        (read_unknown (s := onWorld s full) unknown offset size).1.symm
    · exact (read_same intact held offset size).2
  | readlink i =>
    refine iff_of_true (congrArg Answer.bytes ?_) trivial
    rcases intact.known i with ⟨-, unknown⟩ | ⟨path, node, held⟩
    · exact (readlink_unknown unknown).1.trans
        (readlink_unknown (s := onWorld s full) unknown).1.symm
    · exact (readlink_same intact held).2
  | work => exact iff_of_true rfl trivial
  | world w => exact iff_of_true rfl trivial

end Clone

theorem hydrated_call_iff {spec : MountSpec ω} {u : Universe ω} {w₀ full : ω} {c root : ObjectId}
    {trees blobBytes perEntry headers : Nat} {M : Mount ω} {start s : FsState ω}
    {actions : List (FsAction ω)} {action : FsAction ω}
    (built : (spec.new.run.run (.withCapacities trees blobBytes perEntry headers w₀)).1 =
      .ok (M, start))
    (clone : Clone M u w₀ full c root)
    (run : exec (fsStep M) start actions = some s)
    (distinct : DistinctKeys M.hasher spec.projectionId (seen (fsStep M) (keyOf M) start actions))
    (growing : Meets (fsStep M) (Growing u) start actions) (next : Growing u s action) :
    answer M s action = answer M (onWorld s full) action ↔
      clone.Supplied spec.projectionId s action := by
  obtain ⟨serves, -, same⟩ := start_serves built clone.tree (seen (fsStep M) (keyOf M) start actions)
  have opened : Partly M.gix u w₀ start.store := by
    rw [same]
    exact ⟨truthful_new _ _ _ _ _ _ _ _, fun _ resident => resident⟩
  have intact := Clone.run_intact distinct run growing ⟨serves, opened⟩
  exact Clone.answer_iff intact next

section Sample
open ProjgitTables

def cloneSpec : MountSpec World := sampleTables.mountSpec (.commit (fixtureId 1)) sampleTables.remote

def cloneMount : Mount World := cloneSpec.mount 5

/-- Of the sample, everything is resident but one tree. -/
def without (oid : ObjectId) : World := ⟨[oid], []⟩

def cloneStart (oid : ObjectId) : FsState World :=
  cloneSpec.start (.withCapacities 4 64 64 4 (without oid))

theorem clone_of_sample {oid : ObjectId} (other : oid ≠ fixtureId 1) :
    Clone cloneMount sampleTables.objects (without oid) ⟨[], []⟩ (fixtureId 1) (fixtureId 2) where
  whole := Tables.setting_commit (c := (fixtureId 2, 5)) (by decide +kernel) (by decide +kernel)
    (by decide +kernel) (by decide +kernel) rfl sampleTables.remote 5 []
  honest := sampleTables.remote_honest
  supplies := sampleTables.remote_supplies
  resolves := rfl
  refs _ _ name isRef := by cases isRef
  commit := by
    have known : (sampleTables.object (fixtureId 1)).isSome = true := by decide +kernel
    simp [Tables.objects, without, known, other.symm]

theorem clone_built {oid : ObjectId} (other : oid ≠ fixtureId 1) :
    (cloneSpec.new.run.run (.withCapacities 4 64 64 4 (without oid))).1 =
      .ok (cloneMount, cloneStart oid) :=
  Tables.new_built (c := (fixtureId 2, 5)) (by decide +kernel) (by decide +kernel) _ rfl
    (found_of_resident (clone_of_sample other).commit)

theorem absent_root_not_hydrated :
    Clone cloneMount sampleTables.objects (without (fixtureId 2)) ⟨[], []⟩ (fixtureId 1)
      (fixtureId 2) ∧
    (cloneSpec.new.run.run (.withCapacities 4 64 64 4 (without (fixtureId 2)))).1 =
      .ok (cloneMount, cloneStart (fixtureId 2)) ∧
    answer cloneMount (cloneStart (fixtureId 2)) (.lookup rootInode (ascii "a")) ≠
      answer cloneMount (onWorld (cloneStart (fixtureId 2)) ⟨[], []⟩)
        (.lookup rootInode (ascii "a")) := by
  have other : fixtureId 2 ≠ fixtureId 1 := by decide
  refine ⟨clone_of_sample other, clone_built other, fun same => ?_⟩
  have here : ((cloneMount.lookup rootInode (ascii "a")).run.run
      (cloneStart (fixtureId 2))).1.toBool = false := by decide +kernel
  have there : ((cloneMount.lookup rootInode (ascii "a")).run.run
      (onWorld (cloneStart (fixtureId 2)) ⟨[], []⟩)).1.toBool = true := by decide +kernel
  rw [Answer.attr.inj same, there] at here
  cases here

def hydrationRun : List (FsAction World) :=
  [.lookup rootInode (ascii "a"), .readdir rootInode 0]

theorem absent_below_unnoticed :
    ∃ s, exec (fsStep cloneMount) (cloneStart (fixtureId 3)) hydrationRun = some s ∧
      answer cloneMount s (.lookup rootInode (ascii "d")) =
        answer cloneMount (onWorld s ⟨[], []⟩) (.lookup rootInode (ascii "d")) := by
  have other : fixtureId 3 ≠ fixtureId 1 := by decide
  have first : ProperName (ascii "a") := (by decide +kernel : TextName (ascii "a")).1
  have last : ProperName (ascii "d") := (by decide +kernel : TextName (ascii "d")).1
  have distinct : DistinctKeys sipHash 7
      (seen (fsStep cloneMount) (keyOf cloneMount) (cloneStart (fixtureId 3)) hydrationRun) :=
    distinctKeys_of_apart (by decide +kernel)
  obtain ⟨s, run, reads⟩ : ∃ s, exec (fsStep cloneMount) (cloneStart (fixtureId 3)) hydrationRun =
      some s ∧ ∀ oid ∈ lookupReads
        (sampleTables.gix.uncached sampleTables.object (sampleTables.gix.findReference ⟨[], []⟩))
        (.commit (fixtureId 1)) dotGit (join [fromUtf8Lossy (ascii "d")]),
        sampleTables.objects.resident s.store.world oid = true := ⟨_, rfl, by decide +kernel⟩
  have next : Growing sampleTables.objects s (.lookup rootInode (ascii "d")) := last
  refine ⟨s, run, (hydrated_call_iff (clone_built other) (clone_of_sample other) run distinct
    ⟨first, fun _ _ => ⟨trivial, fun _ _ => trivial⟩⟩ next).mpr ?_⟩
  intro path node held _
  obtain ⟨rfl, rfl⟩ := root_of_inode held.reached held.inode.symm
  exact reads

end Sample
end ProjgitServing
