import Projgit.Fetcher
import Projgit.Lib.Runs
import Projgit.Universe

/-!
Caching and hydration are invisible. A `Session` is a hydrating store whose fetcher
keeps a log of what it was asked and answered; a run is any sequence of calls, mixed
with growth of the resident set. The invariant is that the caches tell the truth and
that headers of absent objects come from probes in the log.
-/
namespace ProjgitStore
open Utf8Bytes ProjgitCaches Stateful LabelledRuns
variable {ω : Type}

inductive FetchEvent where
  | object : ObjectId → Except FetcherError Unit → FetchEvent
  | batch : List ObjectId → List HeaderProbe → FetchEvent

structure Session (ω : Type) where
  log : List FetchEvent
  store : Store ω

def onStore {α : Type} (x : StateM (Store ω) α) : StateM (Session ω) α :=
  zoom Session.store (fun s store => { s with store := store }) x

def StoreHandle.lift (h : StoreHandle (StateM (Store ω))) : StoreHandle (StateM (Session ω)) where
  contains oid := onStore (h.contains oid)
  header oid := ExceptT.mk (onStore (h.header oid).run)
  putHeaderCache oid kind size := onStore (h.putHeaderCache oid kind size)
  readBlob oid := ExceptT.mk (onStore (h.readBlob oid).run)
  readTree oid := ExceptT.mk (onStore (h.readTree oid).run)
  commitTime oid := ExceptT.mk (onStore (h.commitTime oid).run)
  commitTree oid := ExceptT.mk (onStore (h.commitTree oid).run)
  resolveRef name := ExceptT.mk (onStore (h.resolveRef name).run)

def record (event : FetchEvent) : StateM (Session ω) Unit :=
  modify fun s => { s with log := s.log ++ [event] }

def Fetcher.recorded (F : Fetcher (StateM (Store ω))) : Fetcher (StateM (Session ω)) where
  fetchObject oid := ExceptT.mk do
    let answer ← onStore (F.fetchObject oid).run
    record (.object oid answer)
    return answer
  prefetchHeaders oids := do
    let probes ← onStore (F.prefetchHeaders oids)
    record (.batch oids probes)
    return probes
  fetchObjects oids := do
    let probes ← onStore (F.fetchObjects oids)
    record (.batch oids probes)
    return probes

def recording (G : Gix ω) (F : Fetcher (StateM (Store ω))) :
    HydratingObjectStore (StateM (Session ω)) :=
  ⟨G.handle.lift, F.recorded⟩

def HeaderProbe.carried : HeaderProbe → Option (ObjectKind × Nat)
  | .presentWithHeader _ kind size | .headerOnly _ kind size => some (kind, size)
  | .present _ | .error _ _ => none

def Published (log : List FetchEvent) (oid : ObjectId) : Prop :=
  ∃ oids probes, .batch oids probes ∈ log ∧ ∃ p ∈ probes, p.oid = oid ∧ p.carried.isSome

/-- What a fetcher may do to the store it shares: objects arrive, none leaves, and the
    caches gain nothing but the truth about resident objects. -/
structure Extends (G : Gix ω) (u : Universe ω) (s t : Store ω) : Prop where
  grows : u.Grows s.world t.world
  truthful : ∀ published, Truthful G u published s → Truthful G u published t

def TrueProbe (u : Universe ω) (p : HeaderProbe) : Prop :=
  ∀ h, p.carried = some h → headerOf p.oid (u.object p.oid) = .ok h

/-- `fetch_object` returns `Ok` only when the object is then resident, and probes carry
    true headers. -/
structure Honest (G : Gix ω) (u : Universe ω) (F : Fetcher (StateM (Store ω))) : Prop where
  object : ∀ oid s, Gives (F.fetchObject oid).run s fun r t =>
    Extends G u s t ∧ (r = .ok () → u.resident t.world oid = true)
  headers : ∀ oids s, Gives (F.prefetchHeaders oids) s fun probes t =>
    Extends G u s t ∧ ∀ p ∈ probes, TrueProbe u p
  objects : ∀ oids s, Gives (F.fetchObjects oids) s fun probes t =>
    Extends G u s t ∧ ∀ p ∈ probes, TrueProbe u p

inductive StoreCall (ω : Type) where
  | readBlob : ObjectId → StoreCall ω
  | readTree : ObjectId → StoreCall ω
  | header : ObjectId → StoreCall ω
  | prefetchHeaders : List ObjectId → StoreCall ω
  | fetchObjects : List ObjectId → StoreCall ω
  | grow : ω → StoreCall ω

def sessionStep (G : Gix ω) (F : Fetcher (StateM (Store ω))) (s : Session ω) :
    StoreCall ω → Option (Session ω)
  | .readBlob oid => some (((recording G F).readBlob oid).run.run s).2
  | .readTree oid => some (((recording G F).readTree oid).run.run s).2
  | .header oid => some (((recording G F).header oid).run.run s).2
  | .prefetchHeaders oids => some (((recording G F).prefetchHeaders oids).run s).2
  | .fetchObjects oids => some (((recording G F).fetchObjects oids).run s).2
  | .grow w => some { s with store := { s.store with world := w } }

def OnlyGrows (u : Universe ω) (s : Session ω) : StoreCall ω → Prop
  | .grow w => u.Grows s.store.world w
  | _ => True

def Session.new (trees blobBytes perEntry headers : Nat) (w : ω) : Session ω :=
  ⟨[], .withCapacities trees blobBytes perEntry headers w⟩

/-- The caches tell the truth, absent headers having come from logged probes. -/
def Sound (G : Gix ω) (u : Universe ω) (s : Session ω) : Prop :=
  Truthful G u (Published s.log) s.store

section
variable {G : Gix ω} {u : Universe ω} {F : Fetcher (StateM (Store ω))} {s t : Session ω}

theorem published_append {log : List FetchEvent} {oid : ObjectId} (more : List FetchEvent)
    (published : Published log oid) : Published (log ++ more) oid := by
  obtain ⟨oids, probes, logged, carried⟩ := published
  exact ⟨oids, probes, List.mem_append_left _ logged, carried⟩

theorem sound_extends (sound : Sound G u s) {store : Store ω} (extends_ : Extends G u s.store store)
    (more : List FetchEvent) : Sound G u ⟨s.log ++ more, store⟩ :=
  truthful_publish (extends_.truthful _ sound) fun _ published => published_append more published

theorem gives_onStore {α : Type} (x : StateM (Store ω) α) (s : Session ω)
    (post : α → Session ω → Prop) :
    Gives (onStore x) s post ↔ Gives x s.store fun a store => post a ⟨s.log, store⟩ := Iff.rfl

theorem gives_fetchObject (oid : ObjectId) (s : Session ω)
    (post : Except FetcherError Unit → Session ω → Prop) :
    Gives ((recording G F).fetcher.fetchObject oid).run s post ↔
      Gives (F.fetchObject oid).run s.store fun r store =>
        post r ⟨s.log ++ [.object oid r], store⟩ := Iff.rfl

theorem gives_prefetchHeaders (oids : List ObjectId) (s : Session ω)
    (post : List HeaderProbe → Session ω → Prop) :
    Gives ((recording G F).fetcher.prefetchHeaders oids) s post ↔
      Gives (F.prefetchHeaders oids) s.store fun probes store =>
        post probes ⟨s.log ++ [.batch oids probes], store⟩ := Iff.rfl

theorem gives_fetchObjects (oids : List ObjectId) (s : Session ω)
    (post : List HeaderProbe → Session ω → Prop) :
    Gives ((recording G F).fetcher.fetchObjects oids) s post ↔
      Gives (F.fetchObjects oids) s.store fun probes store =>
        post probes ⟨s.log ++ [.batch oids probes], store⟩ := Iff.rfl

def missed {α : Type} : Except ObjectStoreError α → Bool
  | .error (.missingObject _) => true
  | _ => false

theorem gives_hydrateOnMiss {τ α : Type} (H : HydratingObjectStore (StateM τ))
    (read : ObjectId → ExceptT ObjectStoreError (StateM τ) α) (oid : ObjectId) (s : τ)
    (post : Except HydrateError α → τ → Prop) :
    Gives (H.hydrateOnMiss read oid).run s post ↔ Gives (read oid).run s fun r t =>
      if missed r then Gives (H.fetcher.fetchObject oid).run t fun answer t =>
        match answer with
        | .ok () => Gives (read oid).run t fun r t => post (r.mapError absentAfterFetch) t
        | .error e => post (.error (.fetcher e)) t
      else post (r.mapError .store) t := by
  unfold HydratingObjectStore.hydrateOnMiss
  rw [gives_run_bind, gives_run_lift]
  refine gives_congr fun r t => ?_
  rcases r with (_ | _ | _ | _) | a
  · simp only [Sequel, gives_run_bind, gives_run_adapt, missed, if_true]
    refine gives_congr fun answer t => ?_
    rcases answer with e | ⟨⟩ <;> rfl
  all_goals rfl

theorem hydrateOnMiss_present {τ α : Type} {H : HydratingObjectStore (StateM τ)}
    {read : ObjectId → ExceptT ObjectStoreError (StateM τ) α} {oid : ObjectId} {s : τ}
    {post : Except HydrateError α → τ → Prop}
    (gives : Gives (read oid).run s fun r t => missed r = false ∧ post (r.mapError .store) t) :
    Gives (H.hydrateOnMiss read oid).run s post := by
  rw [gives_hydrateOnMiss]
  apply gives.mono
  intro r t given
  obtain ⟨there, holds⟩ := given
  simpa [there] using holds

/-- A read of one object: it misses exactly what is not there. -/
structure ReadOf {α : Type} (oid : ObjectId) (uncached : Option Object → Except ObjectStoreError α) :
    Prop where
  absent : uncached none = .error (.missingObject oid)
  there : ∀ obj, missed (uncached (some obj)) = false

theorem mapError_there {α : Type} {r : Except ObjectStoreError α} (there : missed r = false) :
    r.mapError absentAfterFetch = r.mapError .store := by
  rcases r with (_ | _ | _ | _) | a
  · cases there
  all_goals rfl

theorem ReadOf.resident {α : Type} {oid : ObjectId}
    {uncached : Option Object → Except ObjectStoreError α} (readOf : ReadOf oid uncached) {w : ω}
    (resident : u.resident w oid = true) : missed (uncached (u.object oid)) = false := by
  obtain ⟨obj, object⟩ := Option.isSome_iff_exists.mp (u.known w oid resident)
  rw [object]
  exact readOf.there obj

theorem ReadOf.missing {α : Type} {oid : ObjectId}
    {uncached : Option Object → Except ObjectStoreError α} (readOf : ReadOf oid uncached) {w : ω}
    (absent : u.resident w oid = false) : missed (uncached (u.found w oid)) = true := by
  simp [Universe.found, absent, readOf.absent, missed]

def Transparent {α : Type} (u : Universe ω) (oid : ObjectId)
    (uncached : Option Object → Except ObjectStoreError α) (s : Session ω)
    (r : Except HydrateError α) (t : Session ω) : Prop :=
  if u.resident s.store.world oid then
    t.log = s.log ∧ r = (uncached (u.object oid)).mapError .store
  else ∃ answer, t.log = s.log ++ [.object oid answer] ∧
    match answer with
    | .ok () => u.resident t.store.world oid = true ∧ r = (uncached (u.object oid)).mapError .store
    | .error e => r = .error (.fetcher e)

/-- The answer may instead come from a cached header of an absent object. -/
def FromProbe {α : Type} (u : Universe ω) (oid : ObjectId)
    (uncached : Option Object → Except ObjectStoreError α) (s : Session ω)
    (r : Except HydrateError α) (t : Session ω) : Prop :=
  u.resident s.store.world oid = false ∧ Published s.log oid ∧ t.log = s.log ∧
    ∃ a, uncached (u.object oid) = .ok a ∧ r = .ok a

/-- The local answer: of the resident objects or, where `probed`, of a published header. -/
def LocalAnswer {α : Type} (u : Universe ω) (oid : ObjectId) (probed : Prop)
    (uncached : Option Object → Except ObjectStoreError α) (s : Session ω)
    (r : Except ObjectStoreError α) : Prop :=
  r = uncached (u.found s.store.world oid) ∨
    (probed ∧ Published s.log oid) ∧ ∃ a, r = .ok a ∧ uncached (u.object oid) = .ok a

def LocalRead {α : Type} (G : Gix ω) (u : Universe ω) (oid : ObjectId) (probed : Prop)
    (uncached : Option Object → Except ObjectStoreError α)
    (read : ObjectId → ExceptT ObjectStoreError (StateM (Session ω)) α) : Prop :=
  ∀ s, Sound G u s → Gives (read oid).run s fun r t =>
    Sound G u t ∧ t.store.world = s.store.world ∧ t.log = s.log ∧
      LocalAnswer u oid probed uncached s r

theorem LocalAnswer.resident {α : Type} {oid : ObjectId} {probed : Prop}
    {uncached : Option Object → Except ObjectStoreError α} {r : Except ObjectStoreError α}
    (answer : LocalAnswer u oid probed uncached s r)
    (resident : u.resident s.store.world oid = true) : r = uncached (u.object oid) := by
  rcases answer with plain | ⟨-, a, ok, same⟩
  · rw [plain, found_of_resident resident]
  · rw [ok, same]

theorem hydrated_read {α : Type} {oid : ObjectId} {probed : Prop}
    {uncached : Option Object → Except ObjectStoreError α} (readOf : ReadOf oid uncached)
    {read : ObjectId → ExceptT ObjectStoreError (StateM (Session ω)) α}
    (honest : Honest G u F) (local_ : LocalRead G u oid probed uncached read)
    (sound : Sound G u s) :
    Gives ((recording G F).hydrateOnMiss read oid).run s fun r t =>
      (Sound G u t ∧ u.Grows s.store.world t.store.world) ∧
      (Transparent u oid uncached s r t ∨ probed ∧ FromProbe u oid uncached s r t) := by
  rw [gives_hydrateOnMiss]
  apply (local_ s sound).mono
  intro r t given
  obtain ⟨soundT, world, log, answer⟩ := given
  have still : u.Grows s.store.world t.store.world := fun _ here => world.symm ▸ here
  by_cases resident : u.resident s.store.world oid = true
  · have value := answer.resident resident
    have there : missed r = false := value ▸ readOf.resident resident
    simp only [there, Bool.false_eq_true, if_false]
    exact ⟨⟨soundT, still⟩, Or.inl (by simp [Transparent, resident, log, value])⟩
  · have absent : u.resident s.store.world oid = false := by simpa using resident
    rcases answer with plain | ⟨⟨probed_, published⟩, a, ok, same⟩
    · -- A miss: the fetcher is asked once, and on its `Ok` the object is there to read.
      have miss : missed r = true := plain ▸ readOf.missing absent
      simp only [miss, if_true, gives_fetchObject]
      apply (honest.object oid t.store).mono
      intro fetched store given
      obtain ⟨extends_, lands⟩ := given
      have soundF : Sound G u ⟨t.log ++ [.object oid fetched], store⟩ :=
        sound_extends soundT extends_ _
      have grown : u.Grows s.store.world store.world := fun oid here =>
        extends_.grows oid (still oid here)
      rcases fetched with e | ⟨⟩
      · exact ⟨⟨soundF, grown⟩, Or.inl (by simp [Transparent, absent, log])⟩
      · apply (local_ _ soundF).mono
        intro again final given
        obtain ⟨soundFinal, sameWorld, sameLog, reread⟩ := given
        have landed := lands rfl
        have value := reread.resident landed
        have there : missed again = false := value ▸ readOf.resident landed
        refine ⟨⟨soundFinal, fun oid here => sameWorld.symm ▸ grown oid here⟩, Or.inl ?_⟩
        rw [mapError_there there, value]
        simp [Transparent, absent, sameLog, log, sameWorld, landed]
    · simp only [ok, missed, Bool.false_eq_true, if_false]
      exact ⟨⟨soundT, still⟩, Or.inr ⟨probed_, absent, published, log, a, same, rfl⟩⟩

theorem headerOf_readOf (oid : ObjectId) : ReadOf oid (headerOf oid) := ⟨rfl, fun _ => rfl⟩

theorem ofKind_there (expected : ObjectKind) (oid : ObjectId) (obj : Object) :
    ofKind expected oid (some obj) = .ok obj ∨
      ofKind expected oid (some obj) = .error (.unexpectedKind oid expected obj.kind) := by
  simp only [ofKind]
  split
  · exact Or.inl rfl
  · exact Or.inr rfl

theorem blobOf_readOf (oid : ObjectId) : ReadOf oid (blobOf oid) where
  absent := rfl
  there obj := by
    rcases ofKind_there .blob oid obj with kinded | kinded <;>
      simp [blobOf, kinded, Except.map, missed]

theorem parseTree_there (G : Gix ω) (data : Bytes) :
    missed (ObjectStore.parseTree G data) = false := by
  unfold ObjectStore.parseTree
  induction G.treeIter data with
  | nil => rfl
  | cons entry rest ih =>
    rw [List.mapM_cons]
    generalize rest.mapM (fun entry => entry.mapError ObjectStoreError.backend) = tail at ih ⊢
    rcases entry with e | raw
    · rfl
    · rcases tail with e | es
      · exact ih
      · rfl

theorem treeOf_readOf (G : Gix ω) (oid : ObjectId) : ReadOf oid (treeOf G oid) where
  absent := rfl
  there obj := by
    rcases ofKind_there .tree oid obj with kinded | kinded
    · simp [treeOf, kinded, Except.bind, parseTree_there]
    · simp [treeOf, kinded, Except.bind, missed]

theorem readBlob_local (answers : G.Answers u) (oid : ObjectId) :
    LocalRead G u oid False (blobOf oid) (recording G F).store.readBlob := by
  intro s sound
  apply (gives_onStore (ObjectStore.readBlob G oid).run s _).mpr
  exact (readBlob_gives answers sound oid).mono fun r t given =>
    ⟨given.2.truthful, given.2.world, rfl, Or.inl given.1⟩

theorem readTree_local (answers : G.Answers u) (oid : ObjectId) :
    LocalRead G u oid False (treeOf G oid) (recording G F).store.readTree := by
  intro s sound
  apply (gives_onStore (ObjectStore.readTree G oid).run s _).mpr
  exact (readTree_gives answers sound oid).mono fun r t given =>
    ⟨given.2.truthful, given.2.world, rfl, Or.inl given.1⟩

theorem header_local (answers : G.Answers u) (oid : ObjectId) :
    LocalRead G u oid True (headerOf oid) (recording G F).store.header := by
  intro s sound
  apply (gives_onStore (ObjectStore.header G oid).run s _).mpr
  apply (header_gives answers sound oid).mono
  rintro r t ⟨kept, plain | ⟨published, probe⟩⟩
  · exact ⟨kept.truthful, kept.world, rfl, Or.inl plain⟩
  · exact ⟨kept.truthful, kept.world, rfl, Or.inr ⟨⟨trivial, published⟩, probe⟩⟩

theorem pending_keeps {τ : Type} {inv : τ → Prop} {absent : ObjectId → StateM τ Bool}
    (keeps : ∀ oid, Keeps inv (absent oid)) (oids : List ObjectId) :
    Keeps inv (HydratingObjectStore.pending absent oids) := by
  induction oids with
  | nil => exact keeps_pure inv []
  | cons oid rest ih =>
    exact keeps_bind (keeps oid) fun _ => keeps_bind ih fun _ => keeps_pure inv _

def Answered (G : Gix ω) (u : Universe ω) (oids : List ObjectId) (probes : List HeaderProbe)
    (s : Session ω) : Prop :=
  Sound G u s ∧ .batch oids probes ∈ s.log

def Publishing (G : Gix ω) (u : Universe ω) (oids : List ObjectId) (probes : List HeaderProbe)
    (s t : Session ω) : Prop :=
  Answered G u oids probes t ∧ t.store.world = s.store.world ∧ t.log = s.log

theorem publishProbe_keeps (answers : G.Answers u) {oids : List ObjectId}
    {probes : List HeaderProbe} {p : HeaderProbe} (among : p ∈ probes) (true_ : TrueProbe u p)
    (start : Session ω) :
    Keeps (Publishing G u oids probes start) ((recording G F).publishProbe p) := by
  intro s given
  obtain ⟨⟨sound, logged⟩, world, log⟩ := given
  have put : ∀ h, p.carried = some h →
      Kept G u (Published s.log) s.store (s.store.putHeader p.oid h).2 := fun h carried =>
    putHeader_kept ⟨sound, rfl⟩ (true_ h carried)
      (Or.inr ⟨oids, probes, logged, p, among, rfl, by simp [carried]⟩)
  cases p with
  | present oid =>
    obtain ⟨kept, sameWorld, sameLog, -⟩ := header_local (F := F) answers oid s sound
    exact ⟨⟨kept, sameLog.symm ▸ logged⟩, sameWorld.trans world, sameLog.trans log⟩
  | presentWithHeader oid kind size => exact ⟨⟨(put _ rfl).truthful, logged⟩, world, log⟩
  | headerOnly oid kind size => exact ⟨⟨(put _ rfl).truthful, logged⟩, world, log⟩
  | error oid e => exact ⟨⟨sound, logged⟩, world, log⟩

theorem publishProbes_keeps (answers : G.Answers u) {oids : List ObjectId}
    {probes : List HeaderProbe} (all_true : ∀ p ∈ probes, TrueProbe u p)
    {some_ : List HeaderProbe} (among : some_ ⊆ probes) (start : Session ω) :
    Keeps (Publishing G u oids probes start) ((recording G F).publishProbes some_) := by
  induction some_ with
  | nil => exact keeps_pure _ ()
  | cons p rest ih =>
    obtain ⟨here, later⟩ := List.cons_subset.mp among
    exact keeps_bind (publishProbe_keeps answers here (all_true p here) start) fun _ => ih later

theorem batch_keeps (answers : G.Answers u) {absent : ObjectId → StateM (Session ω) Bool}
    (keeps : ∀ oid, Keeps (Sound G u) (absent oid))
    {ask : List ObjectId → StateM (Session ω) (List HeaderProbe)}
    (asks : ∀ oids s, Sound G u s → Gives (ask oids) s fun probes t =>
      Answered G u oids probes t ∧ ∀ p ∈ probes, TrueProbe u p) (oids : List ObjectId) :
    Keeps (Sound G u) ((recording G F).batch absent ask oids) := by
  refine keeps_bind (pending_keeps keeps oids) fun query => ?_
  by_cases empty : query.isEmpty = true
  · simp only [empty, if_true]
    exact keeps_pure _ _
  · simp only [empty, Bool.false_eq_true, if_false]
    intro s sound
    rw [gives_bind]
    apply (asks query s sound).mono
    intro probes t given
    obtain ⟨answered, all_true⟩ := given
    exact (publishProbes_keeps answers all_true (List.Subset.refl probes) t t
      ⟨answered, rfl, rfl⟩).1.1

theorem answered_of_extends (sound : Sound G u s) {oids : List ObjectId}
    {probes : List HeaderProbe} {store : Store ω} (extends_ : Extends G u s.store store) :
    Answered G u oids probes ⟨s.log ++ [.batch oids probes], store⟩ :=
  ⟨sound_extends sound extends_ _, by simp⟩

theorem prefetchHeaders_keeps (answers : G.Answers u) (honest : Honest G u F)
    (oids : List ObjectId) : Keeps (Sound G u) ((recording G F).prefetchHeaders oids) := by
  refine batch_keeps answers (fun oid => ?_) (fun oids s sound => ?_) oids
  · exact keeps_bind (fun s sound => (header_local answers oid s sound).1) fun _ => keeps_pure _ _
  · rw [gives_prefetchHeaders]
    exact (honest.headers oids s.store).mono fun probes t given =>
      ⟨answered_of_extends sound given.1, given.2⟩

theorem fetchObjects_keeps (answers : G.Answers u) (honest : Honest G u F)
    (oids : List ObjectId) : Keeps (Sound G u) ((recording G F).fetchObjects oids) := by
  unfold HydratingObjectStore.fetchObjects
  by_cases empty : oids.isEmpty = true
  · simp only [empty, if_true]
    exact keeps_pure _ _
  · simp only [empty, Bool.false_eq_true, if_false]
    refine batch_keeps answers (fun oid => ?_) (fun oids s sound => ?_) oids
    · exact keeps_bind (fun s sound => sound) fun _ => keeps_pure _ _
    · rw [gives_fetchObjects]
      exact (honest.objects oids s.store).mono fun probes t given =>
        ⟨answered_of_extends sound given.1, given.2⟩

theorem readBlob_transparent (answers : G.Answers u) (honest : Honest G u F)
    (sound : Sound G u s) (oid : ObjectId) :
    Gives ((recording G F).readBlob oid).run s fun r t =>
      Sound G u t ∧ Transparent u oid (blobOf oid) s r t :=
  (hydrated_read (blobOf_readOf oid) honest (readBlob_local answers oid) sound).mono
    fun _ _ given => ⟨given.1.1, given.2.resolve_right fun probed => probed.1⟩

theorem readTree_transparent (answers : G.Answers u) (honest : Honest G u F)
    (sound : Sound G u s) (oid : ObjectId) :
    Gives ((recording G F).readTree oid).run s fun r t =>
      Sound G u t ∧ Transparent u oid (treeOf G oid) s r t :=
  (hydrated_read (treeOf_readOf G oid) honest (readTree_local answers oid) sound).mono
    fun _ _ given => ⟨given.1.1, given.2.resolve_right fun probed => probed.1⟩

theorem readTree_grows (answers : G.Answers u) (honest : Honest G u F) (sound : Sound G u s)
    (oid : ObjectId) : Gives ((recording G F).readTree oid).run s fun _ t =>
      u.Grows s.store.world t.store.world :=
  (hydrated_read (treeOf_readOf G oid) honest (readTree_local answers oid) sound).mono
    fun _ _ given => given.1.2

theorem header_transparent (answers : G.Answers u) (honest : Honest G u F)
    (sound : Sound G u s) (oid : ObjectId) :
    Gives ((recording G F).header oid).run s fun r t => Sound G u t ∧
      (Transparent u oid (headerOf oid) s r t ∨ FromProbe u oid (headerOf oid) s r t) :=
  (hydrated_read (headerOf_readOf oid) honest (header_local answers oid) sound).mono
    fun _ _ given => ⟨given.1.1, given.2.imp_right fun probed => probed.2⟩

theorem step_sound (answers : G.Answers u) (honest : Honest G u F) (s : Session ω)
    (call : StoreCall ω) (t : Session ω) (stepped : sessionStep G F s call = some t)
    (growing : OnlyGrows u s call) (sound : Sound G u s) : Sound G u t := by
  cases call with
  | readBlob oid =>
    cases stepped
    exact (readBlob_transparent answers honest sound oid).1
  | readTree oid =>
    cases stepped
    exact (readTree_transparent answers honest sound oid).1
  | header oid =>
    cases stepped
    exact (header_transparent answers honest sound oid).1
  | prefetchHeaders oids =>
    cases stepped
    exact prefetchHeaders_keeps answers honest oids s sound
  | fetchObjects oids =>
    cases stepped
    exact fetchObjects_keeps answers honest oids s sound
  | grow w =>
    cases stepped
    exact truthful_world sound growing

theorem run_sound (answers : G.Answers u) (honest : Honest G u F) {start : Session ω}
    {calls : List (StoreCall ω)} (run : exec (sessionStep G F) start calls = some s)
    (growing : Meets (sessionStep G F) (OnlyGrows u) start calls) (fresh : Sound G u start) :
    Sound G u s :=
  exec_keeps_meeting (step_sound answers honest) run growing fresh

/-- After any calls, with any evictions and any growth of the resident set, each read
    answers as an uncached read of the universe, and asks the fetcher once or never. -/
theorem hydration_transparent (answers : G.Answers u) (honest : Honest G u F)
    (trees blobBytes perEntry headers : Nat) (w : ω) (calls : List (StoreCall ω))
    (growing : Meets (sessionStep G F) (OnlyGrows u)
      (.new trees blobBytes perEntry headers w) calls)
    (run : exec (sessionStep G F) (.new trees blobBytes perEntry headers w) calls = some s)
    (oid : ObjectId) :
    Gives ((recording G F).readBlob oid).run s (Transparent u oid (blobOf oid) s) ∧
    Gives ((recording G F).readTree oid).run s (Transparent u oid (treeOf G oid) s) ∧
    Gives ((recording G F).header oid).run s (fun r t =>
      Transparent u oid (headerOf oid) s r t ∨ FromProbe u oid (headerOf oid) s r t) := by
  have sound : Sound G u s :=
    run_sound answers honest run growing (truthful_new G u _ trees blobBytes perEntry headers w)
  refine ⟨?_, ?_, ?_⟩
  · exact (readBlob_transparent answers honest sound oid).mono fun _ _ given => given.2
  · exact (readTree_transparent answers honest sound oid).mono fun _ _ given => given.2
  · exact (header_transparent answers honest sound oid).mono fun _ _ given => given.2

theorem extends_refl (s : Store ω) : Extends G u s s := ⟨fun _ resident => resident, fun _ => id⟩

theorem extends_trans {a b c : Store ω} (first : Extends G u a b) (second : Extends G u b c) :
    Extends G u a c :=
  ⟨fun oid resident => second.grows oid (first.grows oid resident),
    fun published truthful => second.truthful published (first.truthful published truthful)⟩

theorem extends_world {s : Store ω} {w : ω} (grows : u.Grows s.world w) :
    Extends G u s { s with world := w } :=
  ⟨grows, fun _ truthful => truthful_world truthful grows⟩

theorem honest_ofFetchObject {fetchObject : ObjectId → ExceptT FetcherError (StateM (Store ω)) Unit}
    (object : ∀ oid s, Gives (fetchObject oid).run s fun r t =>
      Extends G u s t ∧ (r = .ok () → u.resident t.world oid = true)) :
    Honest G u (.ofFetchObject fetchObject) := by
  have each : ∀ oids s, Gives (fetchEach fetchObject oids) s fun probes t =>
      Extends G u s t ∧ ∀ p ∈ probes, TrueProbe u p := by
    intro oids
    induction oids with
    | nil => exact fun s => ⟨extends_refl s, fun p among => absurd among List.not_mem_nil⟩
    | cons oid rest ih =>
      intro s
      unfold fetchEach at ih ⊢
      simp only [List.mapM_cons, gives_bind]
      apply (object oid s).mono
      intro r t given
      obtain ⟨first, -⟩ := given
      rcases r with e | ⟨⟩
      all_goals
        simp only [gives_pure]
        apply (ih t).mono
        intro probes final given
        obtain ⟨second, all_true⟩ := given
        refine ⟨extends_trans first second, ?_⟩
        intro p among
        rcases List.mem_cons.mp among with rfl | later
        · intro h carried
          cases carried
        · exact all_true p later
  exact ⟨object, each, each⟩

end

section Fixture

def fixtureId (b : UInt8) : ObjectId := ⟨b :: List.replicate 19 0, rfl⟩

def fixtureBlob (oid : ObjectId) : Option Object :=
  if oid = fixtureId 7 then some ⟨.blob, [104, 105, 10]⟩ else none

def fixtureUniverse : Universe (List ObjectId) where
  object := fixtureBlob
  resident w oid := w.contains oid && (fixtureBlob oid).isSome
  known w oid resident := by simp_all

def fixtureGix : Gix (List ObjectId) where
  tryFindObject w oid := .ok (fixtureUniverse.found w oid)
  tryFindHeader w oid := .ok ((fixtureUniverse.found w oid).map Object.header)
  treeIter _ := []
  commitTreeId _ := .error "no commit"
  committerSeconds _ := .error "no commit"
  findReference _ _ := .error "no reference"

def fixtureFetch (oid : ObjectId) : ExceptT FetcherError (StateM (Store (List ObjectId))) Unit :=
  ExceptT.mk (modifyGet fun s =>
    if (fixtureBlob oid).isSome then (.ok (), { s with world := oid :: s.world })
    else (.error (.refused oid "not our ref"), s))

theorem fixtureFetch_honest :
    Honest fixtureGix fixtureUniverse (.ofFetchObject fixtureFetch) := by
  refine honest_ofFetchObject fun oid s => ?_
  unfold fixtureFetch
  rw [gives_run_mk, gives_modifyGet]
  by_cases known : (fixtureBlob oid).isSome = true
  · simp only [known, if_true]
    refine ⟨extends_world fun other resident => ?_, fun _ => by simp [fixtureUniverse, known]⟩
    simp_all [fixtureUniverse]
  · simp only [known, Bool.false_eq_true, if_false]
    exact ⟨extends_refl s, by simp⟩

theorem fixture_transparent :
    ∃ s, exec (sessionStep fixtureGix (.ofFetchObject fixtureFetch)) (.new 1 64 64 1 [])
        [.header (fixtureId 7), .fetchObjects [fixtureId 7, fixtureId 8]] = some s ∧
      Gives ((recording fixtureGix (.ofFetchObject fixtureFetch)).readBlob (fixtureId 7)).run s
        (Transparent fixtureUniverse (fixtureId 7) (blobOf (fixtureId 7)) s) := by
  refine ⟨_, rfl, ?_⟩
  exact (hydration_transparent ⟨fun _ _ => rfl, fun _ _ => rfl⟩ fixtureFetch_honest 1 64 64 1 []
    [.header (fixtureId 7), .fetchObjects [fixtureId 7, fixtureId 8]]
    ⟨trivial, fun _ _ => ⟨trivial, fun _ _ => trivial⟩⟩ rfl (fixtureId 7)).1

end Fixture
end ProjgitStore
