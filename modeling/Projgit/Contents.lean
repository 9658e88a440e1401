import Projgit.Lib.Yields
import Projgit.Residency

/-!
Content integrity of the shared store. An object id stands for one object; gix may fail or
miss and objects may come and go, but every cached answer is that of the object, in every
interleaving of the threads that share the caches. The hydrating store passes this on to
its readers whatever its fetcher does, as long as the headers in its probes are true.
-/
namespace ProjgitStore
open Utf8Bytes ProjgitCaches Interleave
variable {ω ω' τ α : Type}

abbrev Contents := ObjectId → Option Object

/-- What gix finds under an id is what the id stands for. -/
structure Gix.Reads (G : Gix ω) (contents : Contents) : Prop where
  object : ∀ w oid obj, G.tryFindObject w oid = .ok (some obj) → contents oid = some obj
  header : ∀ w oid h, G.tryFindHeader w oid = .ok (some h) →
    (contents oid).map Object.header = some h

/-- The caches hold nothing but the answers of the objects. Those in the header cache were
    told by a fetcher, and are true if its probes are. -/
structure TrueCaches (G : Gix ω) (contents : Contents) (attested : Prop) (s : Store ω') :
    Prop where
  trees : Cached s.treeCache.entries fun oid es => treeOf G oid (contents oid) = .ok es
  blobs : Cached s.blobCache.entries fun oid b => blobOf oid (contents oid) = .ok b
  headers : attested → Cached s.headerCache.entries fun oid h =>
    headerOf oid (contents oid) = .ok h

/-- The answer of a local read: the true one, a miss or a failure of gix. -/
def Tells (truth r : Except ObjectStoreError α) : Prop :=
  r = truth ∨ (∃ oid, r = .error (.missingObject oid)) ∨ ∃ why, r = .error (.backend why)

/-- The answer of a hydrating read: the true one, or the failure of a fetch or of gix. -/
def Reports (truth : Except ObjectStoreError α) (r : Except HydrateError α) : Prop :=
  r = truth.mapError .store ∨ (∃ e, r = .error (.fetcher e)) ∨
    ∃ why, r = .error (.store (.backend why))

def TrueOf (contents : Contents) (p : HeaderProbe) : Prop :=
  ∀ h, p.carried = some h → headerOf p.oid (contents p.oid) = .ok h

/-- A borrower of the store reads the objects, and keeps what is shared in order. -/
structure StoreHandle.Faithful (h : StoreHandle (Prog τ)) (inv : τ → Prop) (G : Gix ω)
    (contents : Contents) (attested : Prop) : Prop where
  contains : ∀ oid, Yields inv (h.contains oid) fun _ => True
  header : ∀ oid, Yields inv (h.header oid).run fun r =>
    attested → Tells (headerOf oid (contents oid)) r
  putHeaderCache : ∀ oid kind size,
    (attested → headerOf oid (contents oid) = .ok (kind, size)) →
    Yields inv (h.putHeaderCache oid kind size) fun _ => True
  readBlob : ∀ oid, Yields inv (h.readBlob oid).run (Tells (blobOf oid (contents oid)))
  readTree : ∀ oid, Yields inv (h.readTree oid).run (Tells (treeOf G oid (contents oid)))
  commitTree : ∀ oid, Yields inv (h.commitTree oid).run
    (Tells (commitTreeOf G oid (contents oid)))

structure Fetcher.Attests (F : Fetcher (Prog τ)) (inv : τ → Prop) (contents : Contents)
    (attested : Prop) : Prop where
  fetchObject : ∀ oid, Yields inv (F.fetchObject oid).run fun _ => True
  prefetchHeaders : ∀ oids, Yields inv (F.prefetchHeaders oids) fun probes =>
    attested → ∀ p ∈ probes, TrueOf contents p
  fetchObjects : ∀ oids, Yields inv (F.fetchObjects oids) fun probes =>
    attested → ∀ p ∈ probes, TrueOf contents p

theorem Tells.ok {truth : Except ObjectStoreError α} {a : α} (tells : Tells truth (.ok a)) :
    truth = .ok a := by
  rcases tells with same | ⟨oid, impossible⟩ | ⟨why, impossible⟩
  · exact same.symm
  · cases impossible
  · cases impossible

theorem Tells.stop {β : Type} {truth : Except ObjectStoreError α} {e : ObjectStoreError}
    (tells : Tells truth (.error e))
    {f : Except ObjectStoreError α → Except ObjectStoreError β}
    (passes : ∀ e, f (.error e) = .error e) : Tells (f truth) (.error e) := by
  rcases tells with rfl | ⟨oid, same⟩ | ⟨why, same⟩
  · exact Or.inl (passes e).symm
  · cases same
    exact Or.inr (Or.inl ⟨oid, rfl⟩)
  · cases same
    exact Or.inr (Or.inr ⟨why, rfl⟩)

theorem Reports.ok {truth : Except ObjectStoreError α} {a : α} (reports : Reports truth (.ok a)) :
    truth = .ok a := by
  rcases reports with same | ⟨e, impossible⟩ | ⟨why, impossible⟩
  · cases truth with
    | error e => cases same
    | ok b =>
      cases same
      rfl
  · cases impossible
  · cases impossible

section
variable {G : Gix ω} {contents : Contents} {attested : Prop} {inv : Store ω → Prop}

theorem trueCaches_new (trees blobBytes perEntry headers : Nat) (w : ω') :
    TrueCaches G contents attested (.withCapacities trees blobBytes perEntry headers w) :=
  ⟨cached_empty _, cached_empty _, fun _ => cached_empty _⟩

theorem yields_access (G : Gix ω) {f : Store ω → α × Store ω} {good : α → Prop}
    (each : ∀ s, inv s → inv (f s).2 ∧ good (f s).1) :
    Yields inv (G.access f : Prog (Store ω) α) good := yields_lift each

theorem yields_ask {question : ω → Except String α} {p : α → Prop}
    (told : ∀ w a, question w = .ok a → p a) :
    Yields inv (G.ask question : ExceptT ObjectStoreError (Prog (Store ω)) α).run fun r =>
      (∀ a, r = .ok a → p a) ∧ ∀ e, r = .error e → ∃ why, e = .backend why := by
  refine yields_access G fun s holds => ⟨holds, ?_⟩
  cases answered : question s.world with
  | error why =>
    refine ⟨fun a same => (nomatch same), fun e same => ⟨why, ?_⟩⟩
    cases same
    rfl
  | ok a =>
    refine ⟨fun b same => ?_, fun e same => (nomatch same)⟩
    cases same
    exact told s.world a answered

theorem findKind_tells (reads : G.Reads contents) (expected : ObjectKind) (oid : ObjectId) :
    Yields inv (ObjectStore.findKind G expected oid : ExceptT _ (Prog (Store ω)) Object).run
      (Tells (ofKind expected oid (contents oid))) := by
  unfold ObjectStore.findKind
  have asked : Yields inv
      (G.ask (G.tryFindObject · oid) : ExceptT _ (Prog (Store ω)) (Option Object)).run _ :=
    yields_ask (p := fun found => ∀ obj, found = some obj → contents oid = some obj)
      fun w found answered obj same => reads.object w oid obj (by rw [answered, same])
  refine asked.runBind ?_ ?_
  · rintro e ⟨-, failed⟩
    obtain ⟨why, rfl⟩ := failed e rfl
    exact Or.inr (Or.inr ⟨why, rfl⟩)
  · rintro found ⟨found_, -⟩
    cases found with
    | none => exact yields_pure (Or.inr (Or.inl ⟨oid, rfl⟩))
    | some obj =>
      have here := found_ _ rfl obj rfl
      rw [here]
      by_cases kind : obj.kind = expected
      · simp only [ofKind, kind, if_true]
        exact yields_pure (Or.inl rfl)
      · simp only [ofKind, kind, if_false]
        exact yields_pure (Or.inl rfl)

theorem header_tells (reads : G.Reads contents) (oid : ObjectId) :
    Yields (TrueCaches G contents attested)
      (ObjectStore.header G oid : ExceptT _ (Prog (Store ω)) _).run fun r =>
        attested → Tells (headerOf oid (contents oid)) r := by
  unfold ObjectStore.header
  have looked : Yields (TrueCaches G contents attested)
      (G.access (Store.getHeader oid) : Prog (Store ω) _) fun hit =>
        attested → ∀ h, hit = some h → headerOf oid (contents oid) = .ok h := by
    refine yields_access G fun s caches => ⟨⟨caches.trees, caches.blobs,
      fun told => Lru.get_cached (caches.headers told) oid⟩, fun told h hit => ?_⟩
    rw [show (Store.getHeader oid s).1 = _ from Lru.get_value oid s.headerCache] at hit
    obtain ⟨e, entry, rfl⟩ := Option.map_eq_some_iff.mp hit
    exact caches.headers told oid e entry
  apply looked.runLift
  intro hit truth
  cases hit with
  | some h => exact yields_pure fun told => Or.inl (truth told h rfl).symm
  | none =>
    have missed : Yields (TrueCaches G contents attested)
        (G.access Store.missHeader : Prog (Store ω) Unit) fun _ => True :=
      yields_access G fun s caches => ⟨⟨caches.trees, caches.blobs, caches.headers⟩, trivial⟩
    refine missed.runLift fun _ _ => ?_
    have asked : Yields (TrueCaches G contents attested)
        (G.ask (G.tryFindHeader · oid) : ExceptT _ (Prog (Store ω)) _).run _ :=
      yields_ask (p := fun found => ∀ h, found = some h → headerOf oid (contents oid) = .ok h)
        fun w found answered h same => by
          have known := reads.header w oid h (by rw [answered, same])
          obtain ⟨obj, object, rfl⟩ := Option.map_eq_some_iff.mp known
          rw [object]
          rfl
    refine asked.runBind ?_ ?_
    · rintro e ⟨-, failed⟩ -
      obtain ⟨why, rfl⟩ := failed e rfl
      exact Or.inr (Or.inr ⟨why, rfl⟩)
    · rintro found ⟨found_, -⟩
      cases found with
      | none => exact yields_pure fun _ => Or.inr (Or.inl ⟨oid, rfl⟩)
      | some h =>
        have here := found_ _ rfl h rfl
        have put : Yields (TrueCaches G contents attested)
            (G.access (Store.putHeader oid h) : Prog (Store ω) Unit) fun _ => True :=
          yields_access G fun s caches => ⟨⟨caches.trees, caches.blobs,
            fun told => Lru.put_cached (caches.headers told) here⟩, trivial⟩
        exact put.runLift fun _ _ => yields_pure fun _ => Or.inl here.symm

theorem readBlob_tells (reads : G.Reads contents) (oid : ObjectId) :
    Yields (TrueCaches G contents attested)
      (ObjectStore.readBlob G oid : ExceptT _ (Prog (Store ω)) _).run
      (Tells (blobOf oid (contents oid))) := by
  unfold ObjectStore.readBlob
  have looked : Yields (TrueCaches G contents attested)
      (G.access (Store.getBlob oid) : Prog (Store ω) _) fun hit =>
        ∀ b, hit = some b → blobOf oid (contents oid) = .ok b := by
    refine yields_access G fun s caches =>
      ⟨⟨caches.trees, BlobCache.get_cached caches.blobs oid, caches.headers⟩, fun b hit => ?_⟩
    simp only [Store.getBlob, BlobCache.get_value, Option.map_eq_some_iff] at hit
    obtain ⟨e, entry, rfl⟩ := hit
    exact caches.blobs oid e entry
  apply looked.runLift
  intro hit truth
  cases hit with
  | some b => exact yields_pure (Or.inl (truth b rfl).symm)
  | none =>
    have missed : Yields (TrueCaches G contents attested)
        (G.access Store.missBlob : Prog (Store ω) Unit) fun _ => True :=
      yields_access G fun s caches => ⟨⟨caches.trees, caches.blobs, caches.headers⟩, trivial⟩
    refine missed.runLift fun _ _ => (findKind_tells reads .blob oid).runBind ?_ ?_
    · exact fun e tells => tells.stop (f := fun r => r.map Object.data) fun _ => rfl
    · intro obj tells
      have here : blobOf oid (contents oid) = .ok obj.data := by
        rw [blobOf, tells.ok]
        rfl
      have put : Yields (TrueCaches G contents attested)
          (G.access (Store.putBlob oid obj.data) : Prog (Store ω) Unit) fun _ => True :=
        yields_access G fun s caches =>
          ⟨⟨caches.trees, BlobCache.put_cached caches.blobs here, caches.headers⟩, trivial⟩
      exact put.runLift fun _ _ => yields_pure (Or.inl here.symm)

theorem readTree_tells (reads : G.Reads contents) (oid : ObjectId) :
    Yields (TrueCaches G contents attested)
      (ObjectStore.readTree G oid : ExceptT _ (Prog (Store ω)) _).run
      (Tells (treeOf G oid (contents oid))) := by
  unfold ObjectStore.readTree
  have looked : Yields (TrueCaches G contents attested)
      (G.access (Store.getTree oid) : Prog (Store ω) _) fun hit =>
        ∀ es, hit = some es → treeOf G oid (contents oid) = .ok es := by
    refine yields_access G fun s caches =>
      ⟨⟨Lru.get_cached caches.trees oid, caches.blobs, caches.headers⟩, fun es hit => ?_⟩
    simp only [Store.getTree, Lru.get_value, Option.map_eq_some_iff] at hit
    obtain ⟨e, entry, rfl⟩ := hit
    exact caches.trees oid e entry
  apply looked.runLift
  intro hit truth
  cases hit with
  | some es => exact yields_pure (Or.inl (truth es rfl).symm)
  | none =>
    have missed : Yields (TrueCaches G contents attested)
        (G.access Store.missTree : Prog (Store ω) Unit) fun _ => True :=
      yields_access G fun s caches => ⟨⟨caches.trees, caches.blobs, caches.headers⟩, trivial⟩
    refine missed.runLift fun _ _ => (findKind_tells reads .tree oid).runBind ?_ ?_
    · exact fun e tells => tells.stop
        (f := fun r => r.bind fun obj => ObjectStore.parseTree G obj.data) fun _ => rfl
    · intro obj tells
      have here : treeOf G oid (contents oid) = ObjectStore.parseTree G obj.data := by
        rw [treeOf, tells.ok]
        rfl
      have parsed : Yields (TrueCaches G contents attested)
          (ExceptT.mk (pure (ObjectStore.parseTree G obj.data)) :
            ExceptT ObjectStoreError (Prog (Store ω)) _).run
          (· = treeOf G oid (contents oid)) := yields_pure here.symm
      refine parsed.runBind (fun e same => Or.inl same) fun es same => ?_
      have put : Yields (TrueCaches G contents attested)
          (G.access (Store.putTree oid es) : Prog (Store ω) Unit) fun _ => True :=
        yields_access G fun s caches =>
          ⟨⟨Lru.put_cached caches.trees same.symm, caches.blobs, caches.headers⟩, trivial⟩
      exact put.runLift fun _ _ => yields_pure (Or.inl same)

theorem commitTree_tells (reads : G.Reads contents) (oid : ObjectId) :
    Yields inv (ObjectStore.commitTree G oid : ExceptT _ (Prog (Store ω)) _).run
      (Tells (commitTreeOf G oid (contents oid))) := by
  unfold ObjectStore.commitTree
  refine (findKind_tells reads .commit oid).runBind ?_ ?_
  · exact fun e tells => tells.stop (f := fun r => r.bind fun obj =>
      (G.commitTreeId obj.data).mapError .backend) fun _ => rfl
  · intro obj tells
    refine yields_pure (Or.inl ?_)
    rw [commitTreeOf, tells.ok]
    rfl

theorem handle_faithful (reads : G.Reads contents) :
    (G.handle : StoreHandle (Prog (Store ω))).Faithful (TrueCaches G contents attested) G contents
      attested where
  contains _ := yields_access G fun _ caches => ⟨caches, trivial⟩
  header := header_tells reads
  putHeaderCache _ _ _ truth := yields_access G fun _ caches =>
    ⟨⟨caches.trees, caches.blobs,
      fun told => Lru.put_cached (caches.headers told) (truth told)⟩, trivial⟩
  readBlob := readBlob_tells reads
  readTree := readTree_tells reads
  commitTree := commitTree_tells reads

end

theorem StoreHandle.Faithful.zoom {σ : Type} {h : StoreHandle (Prog σ)} {inv : σ → Prop}
    {G : Gix ω} {contents : Contents} {attested : Prop}
    (faithful : h.Faithful inv G contents attested)
    {get : τ → σ} {set : τ → σ → τ} {whole : τ → Prop} (get_set : ∀ t s, get (set t s) = s)
    (part : ∀ t, whole t → inv (get t)) (put : ∀ t s, whole t → inv s → whole (set t s)) :
    (h.zoom get set).Faithful whole G contents attested where
  contains oid := (faithful.contains oid).zoom get_set part put
  header oid := (faithful.header oid).zoom get_set part put
  putHeaderCache oid kind size truth :=
    (faithful.putHeaderCache oid kind size truth).zoom get_set part put
  readBlob oid := (faithful.readBlob oid).zoom get_set part put
  readTree oid := (faithful.readTree oid).zoom get_set part put
  commitTree oid := (faithful.commitTree oid).zoom get_set part put

theorem Fetcher.Attests.zoom {σ : Type} {F : Fetcher (Prog σ)} {inv : σ → Prop}
    {contents : Contents} {attested : Prop} (attests : F.Attests inv contents attested)
    {get : τ → σ} {set : τ → σ → τ} {whole : τ → Prop} (get_set : ∀ t s, get (set t s) = s)
    (part : ∀ t, whole t → inv (get t)) (put : ∀ t s, whole t → inv s → whole (set t s)) :
    (F.zoom get set).Attests whole contents attested where
  fetchObject oid := (attests.fetchObject oid).zoom get_set part put
  prefetchHeaders oids := (attests.prefetchHeaders oids).zoom get_set part put
  fetchObjects oids := (attests.fetchObjects oids).zoom get_set part put

theorem trueOf_present (contents : Contents) (oid : ObjectId) :
    TrueOf contents (.present oid) := by
  intro h carried
  cases carried

theorem trueOf_error (contents : Contents) (oid : ObjectId) (e : FetcherError) :
    TrueOf contents (.error oid e) := by
  intro h carried
  cases carried

theorem fetchEach_attests {inv : τ → Prop} {contents : Contents}
    {fetchObject : ObjectId → ExceptT FetcherError (Prog τ) Unit}
    (each : ∀ oid, Yields inv (fetchObject oid).run fun _ => True) (oids : List ObjectId) :
    Yields inv (fetchEach fetchObject oids) fun probes => ∀ p ∈ probes, TrueOf contents p := by
  induction oids with
  | nil => exact yields_pure (by simp)
  | cons oid rest ih =>
    rw [fetchEach_cons]
    have probed : Yields inv (probeByFetch fetchObject oid) (TrueOf contents) := by
      unfold probeByFetch
      refine (each oid).bind fun r _ => ?_
      cases r with
      | error e => exact yields_pure (trueOf_error contents oid e)
      | ok _ => exact yields_pure (trueOf_present contents oid)
    refine probed.bind fun p first => ih.bind fun more later => yields_pure ?_
    simpa using ⟨first, later⟩

theorem noop_attests {inv : τ → Prop} {contents : Contents} {attested : Prop} :
    (NoopFetcher : Fetcher (Prog τ)).Attests inv contents attested where
  fetchObject _ := yields_pure trivial
  prefetchHeaders oids := (fetchEach_attests (fun _ => yields_pure trivial) oids).mono
    fun _ all _ => all
  fetchObjects oids := (fetchEach_attests (fun _ => yields_pure trivial) oids).mono
    fun _ all _ => all

structure HydratingObjectStore.Faithful (H : HydratingObjectStore (Prog τ)) (inv : τ → Prop)
    (G : Gix ω) (contents : Contents) (attested : Prop) : Prop where
  store : H.store.Faithful inv G contents attested
  fetcher : H.fetcher.Attests inv contents attested

namespace HydratingObjectStore
variable {H : HydratingObjectStore (Prog τ)} {inv : τ → Prop} {G : Gix ω} {contents : Contents}
  {attested : Prop}

/-- A read that tells the truth under a condition, before the fetch and after it. -/
theorem hydrate_reports (faithful : H.Faithful inv G contents attested)
    {read : ObjectId → ExceptT ObjectStoreError (Prog τ) α} {oid : ObjectId}
    {truth : Except ObjectStoreError α} {p : Prop}
    (reads : Yields inv (read oid).run fun r => p → Tells truth r) :
    Yields inv (H.hydrateOnMiss read oid).run fun r => p → Reports truth r := by
  unfold hydrateOnMiss
  apply reads.runLift
  intro result tells
  cases result with
  | ok a =>
    refine yields_pure fun holds => Or.inl ?_
    rw [(tells holds).ok]
    rfl
  | error e =>
    cases e with
    | missingObject o =>
      have asked : Yields inv
          (ExceptT.adapt HydrateError.fetcher (H.fetcher.fetchObject oid)).run fun r =>
            ∀ e, r = .error e → ∃ why, e = .fetcher why := by
        apply (faithful.fetcher.fetchObject oid).runAdapt
        intro r _ e same
        cases r with
        | ok _ => cases same
        | error why =>
          cases same
          exact ⟨why, rfl⟩
      refine asked.runBind ?_ ?_
      · intro e failed _
        obtain ⟨why, rfl⟩ := failed e rfl
        exact Or.inr (Or.inl ⟨why, rfl⟩)
      · intro _ _
        apply reads.runAdapt absentAfterFetch
        intro r again holds
        cases r with
        | ok a =>
          rw [(again holds).ok]
          exact Or.inl rfl
        | error e =>
          rcases again holds with rfl | ⟨other, same⟩ | ⟨why, same⟩
          · cases e with
            | missingObject other => exact Or.inr (Or.inl ⟨_, rfl⟩)
            | _ => exact Or.inl rfl
          · cases same
            exact Or.inr (Or.inl ⟨_, rfl⟩)
          · cases same
            exact Or.inr (Or.inr ⟨why, rfl⟩)
    | backend why => exact yields_pure fun _ => Or.inr (Or.inr ⟨why, rfl⟩)
    | _ =>
      refine yields_pure fun holds => ?_
      rcases tells holds with rfl | ⟨other, same⟩ | ⟨why, same⟩
      · exact Or.inl rfl
      · cases same
      · cases same

theorem readBlob_reports (faithful : H.Faithful inv G contents attested) (oid : ObjectId) :
    Yields inv (H.readBlob oid).run (Reports (blobOf oid (contents oid))) :=
  (hydrate_reports (p := True) faithful ((faithful.store.readBlob oid).mono fun _ tells _ =>
    tells)).mono fun _ reports => reports trivial

theorem readTree_reports (faithful : H.Faithful inv G contents attested) (oid : ObjectId) :
    Yields inv (H.readTree oid).run (Reports (treeOf G oid (contents oid))) :=
  (hydrate_reports (p := True) faithful ((faithful.store.readTree oid).mono fun _ tells _ =>
    tells)).mono fun _ reports => reports trivial

theorem header_reports (faithful : H.Faithful inv G contents attested) (oid : ObjectId) :
    Yields inv (H.header oid).run fun r => attested → Reports (headerOf oid (contents oid)) r :=
  hydrate_reports faithful (faithful.store.header oid)

theorem pending_keeps {absent : ObjectId → Prog τ Bool}
    (tested : ∀ oid, Yields inv (absent oid) fun _ => True) (oids : List ObjectId) :
    Yields inv (pending absent oids) fun _ => True := by
  induction oids with
  | nil => exact yields_pure trivial
  | cons oid rest ih =>
    exact (tested oid).bind fun missing _ => ih.bind fun more _ => yields_pure trivial

theorem publishProbe_keeps (faithful : H.Faithful inv G contents attested) (p : HeaderProbe)
    (truth : attested → TrueOf contents p) : Yields inv (H.publishProbe p) fun _ => True := by
  cases p with
  | present oid => exact (faithful.store.header oid).bind fun r _ => yields_pure trivial
  | presentWithHeader oid kind size =>
    exact faithful.store.putHeaderCache oid kind size fun told => truth told _ rfl
  | headerOnly oid kind size =>
    exact faithful.store.putHeaderCache oid kind size fun told => truth told _ rfl
  | error oid e => exact yields_pure trivial

theorem publishProbes_keeps (faithful : H.Faithful inv G contents attested)
    (probes : List HeaderProbe) (truth : attested → ∀ p ∈ probes, TrueOf contents p) :
    Yields inv (H.publishProbes probes) fun _ => True := by
  induction probes with
  | nil => exact yields_pure trivial
  | cons p rest ih =>
    exact (publishProbe_keeps faithful p fun told => truth told p (by simp)).bind fun _ _ =>
      ih fun told q member => truth told q (by simp [member])

theorem byOid_mem {probes : List HeaderProbe} {oid : ObjectId} {p : HeaderProbe}
    (filed : (byOid probes).lookup oid = some p) : p ∈ probes := by
  have gathered : ∀ (probes : List HeaderProbe) (found : AList fun _ : ObjectId => HeaderProbe),
      (probes.foldl (fun found probe => found.insert probe.oid probe) found).lookup oid = some p →
        found.lookup oid = some p ∨ p ∈ probes := by
    intro probes
    induction probes with
    | nil => exact fun found there => Or.inl there
    | cons q rest ih =>
      intro found there
      rcases ih _ there with before | later
      · by_cases here : oid = q.oid
        · subst here
          rw [AList.lookup_insert, Option.some.injEq] at before
          exact Or.inr (by simp [before])
        · rw [AList.lookup_insert_ne here] at before
          exact Or.inl before
      · exact Or.inr (List.mem_cons_of_mem _ later)
  rcases gathered probes ∅ filed with impossible | member
  · simp at impossible
  · exact member

theorem reassemble_true {found : AList fun _ : ObjectId => HeaderProbe} (oids : List ObjectId)
    (truth : ∀ oid p, found.lookup oid = some p → TrueOf contents p) :
    ∀ p ∈ reassemble found oids, TrueOf contents p := by
  induction oids generalizing found with
  | nil => simp [reassemble]
  | cons oid rest ih =>
    intro p member
    rcases List.mem_cons.mp member with rfl | later
    · cases filed : found.lookup oid with
      | none => exact trueOf_present contents oid
      | some q => exact truth oid q filed
    · refine ih (fun other q filed => ?_) p later
      by_cases same : other = oid
      · subst same
        simp at filed
      · rw [AList.lookup_erase_ne same] at filed
        exact truth other q filed

theorem batch_true (faithful : H.Faithful inv G contents attested)
    {absent : ObjectId → Prog τ Bool} {ask : List ObjectId → Prog τ (List HeaderProbe)}
    (tested : ∀ oid, Yields inv (absent oid) fun _ => True)
    (asked : ∀ oids, Yields inv (ask oids) fun probes =>
      attested → ∀ p ∈ probes, TrueOf contents p) (oids : List ObjectId) :
    Yields inv (H.batch absent ask oids) fun probes =>
      attested → ∀ p ∈ probes, TrueOf contents p := by
  refine (pending_keeps tested oids).bind fun query _ => ?_
  split
  · refine yields_pure fun _ p member => ?_
    obtain ⟨oid, -, rfl⟩ := List.mem_map.mp member
    exact trueOf_present contents oid
  · refine (asked query).bind fun probes truth => ?_
    refine (publishProbes_keeps faithful probes truth).bind fun _ _ => yields_pure fun told => ?_
    exact reassemble_true oids fun oid p filed => truth told p (byOid_mem filed)

theorem prefetchHeaders_true (faithful : H.Faithful inv G contents attested)
    (oids : List ObjectId) : Yields inv (H.prefetchHeaders oids) fun probes =>
      attested → ∀ p ∈ probes, TrueOf contents p :=
  batch_true faithful (fun oid => (faithful.store.header oid).bind fun _ _ => yields_pure trivial)
    faithful.fetcher.prefetchHeaders oids

theorem fetchObjects_true (faithful : H.Faithful inv G contents attested)
    (oids : List ObjectId) : Yields inv (H.fetchObjects oids) fun probes =>
      attested → ∀ p ∈ probes, TrueOf contents p := by
  unfold fetchObjects
  split
  · exact yields_pure fun _ p member => absurd member List.not_mem_nil
  · exact batch_true faithful
      (fun oid => (faithful.store.contains oid).bind fun _ _ => yields_pure trivial)
      faithful.fetcher.fetchObjects oids

theorem warmLevel_keeps (faithful : H.Faithful inv G contents attested)
    (frontier next visited : List ObjectId) (stats : WarmTreeStats) :
    Yields inv (H.warmLevel frontier next visited stats) fun _ => True := by
  induction frontier generalizing next visited stats with
  | nil => exact yields_pure trivial
  | cons tree rest ih =>
    apply (readTree_reports faithful tree).bind
    intro r _
    cases r with
    | error e => exact ih _ _ _
    | ok entries => exact ih _ _ _

theorem warmFrom_keeps (faithful : H.Faithful inv G contents attested) (rounds : Nat)
    (frontier visited : List ObjectId) (stats : WarmTreeStats) :
    Yields inv (H.warmFrom rounds frontier visited stats) fun _ => True := by
  induction rounds generalizing frontier visited stats with
  | zero => exact yields_pure trivial
  | succ rounds ih =>
    apply (warmLevel_keeps faithful frontier [] visited _).bind
    rintro ⟨next, visited', stats'⟩ -
    dsimp only
    split
    · exact yields_pure trivial
    · exact (fetchObjects_true faithful next).bind fun _ _ => ih next visited' stats'

theorem warmTreeClosure_keeps (faithful : H.Faithful inv G contents attested)
    (rootTree : ObjectId) : Yields inv (H.warmTreeClosure rootTree) fun _ => True :=
  (fetchObjects_true faithful [rootTree]).bind fun _ _ => warmFrom_keeps faithful _ _ _ _

end HydratingObjectStore
end ProjgitStore
