import Projgit.Lib.Stateful
import Projgit.ObjectStore

/-!
What the store is for: answering reads of one immutable universe of objects, of which
the local database holds a growing part. `Gix.uncached` is the cacheless store over a
given set of objects; with caches that tell the truth, every method of `ObjectStore`
answers as it does and leaves the caches telling the truth.
-/
namespace ProjgitStore
open Utf8Bytes ProjgitCaches Stateful

structure Universe (ω : Type) where
  object : ObjectId → Option Object
  resident : ω → ObjectId → Bool
  known : ∀ w oid, resident w oid = true → (object oid).isSome

variable {ω : Type}

/-- What the local database has under `oid`. -/
def Universe.found (u : Universe ω) (w : ω) (oid : ObjectId) : Option Object :=
  if u.resident w oid then u.object oid else none

/-- gix answers from the resident objects. -/
structure Gix.Answers (G : Gix ω) (u : Universe ω) : Prop where
  object : ∀ w oid, G.tryFindObject w oid = .ok (u.found w oid)
  header : ∀ w oid, G.tryFindHeader w oid = .ok ((u.found w oid).map Object.header)

def headerOf (oid : ObjectId) : Option Object → Except ObjectStoreError (ObjectKind × Nat)
  | none => .error (.missingObject oid)
  | some obj => .ok obj.header

def ofKind (expected : ObjectKind) (oid : ObjectId) :
    Option Object → Except ObjectStoreError Object
  | none => .error (.missingObject oid)
  | some obj =>
    if obj.kind = expected then .ok obj else .error (.unexpectedKind oid expected obj.kind)

def blobOf (oid : ObjectId) (found : Option Object) : Except ObjectStoreError Bytes :=
  (ofKind .blob oid found).map Object.data

def treeOf (G : Gix ω) (oid : ObjectId) (found : Option Object) :
    Except ObjectStoreError (List RawTreeEntry) :=
  (ofKind .tree oid found).bind fun obj => ObjectStore.parseTree G obj.data

def commitTimeOf (G : Gix ω) (oid : ObjectId) (found : Option Object) :
    Except ObjectStoreError Int :=
  (ofKind .commit oid found).bind fun obj => (G.committerSeconds obj.data).mapError .backend

def commitTreeOf (G : Gix ω) (oid : ObjectId) (found : Option Object) :
    Except ObjectStoreError ObjectId :=
  (ofKind .commit oid found).bind fun obj => (G.commitTreeId obj.data).mapError .backend

/-- The store without caches over a set of objects and of refs. -/
def Gix.uncached (G : Gix ω) (found : ObjectId → Option Object)
    (refs : Bytes → Except String ObjectId) : StoreHandle Id where
  contains oid := (found oid).isSome
  header oid := ExceptT.mk (headerOf oid (found oid))
  putHeaderCache _ _ _ := ()
  readBlob oid := ExceptT.mk (blobOf oid (found oid))
  readTree oid := ExceptT.mk (treeOf G oid (found oid))
  commitTime oid := ExceptT.mk (commitTimeOf G oid (found oid))
  commitTree oid := ExceptT.mk (commitTreeOf G oid (found oid))
  resolveRef name := ExceptT.mk ((refs name).mapError .backend)

/-- Every cached answer is the one an uncached read gives. A header may also belong to
    an object that is not resident, if it has been `published`. -/
structure Truthful (G : Gix ω) (u : Universe ω) (published : ObjectId → Prop)
    (s : Store ω) : Prop where
  trees : Cached s.treeCache.entries fun oid es => treeOf G oid (u.found s.world oid) = .ok es
  blobs : Cached s.blobCache.entries fun oid b => blobOf oid (u.found s.world oid) = .ok b
  headers : Cached s.headerCache.entries fun oid h =>
    headerOf oid (u.object oid) = .ok h ∧ (u.resident s.world oid = true ∨ published oid)

theorem truthful_new (G : Gix ω) (u : Universe ω) (published : ObjectId → Prop)
    (trees blobBytes perEntry headers : Nat) (w : ω) :
    Truthful G u published (.withCapacities trees blobBytes perEntry headers w) :=
  ⟨cached_empty _, cached_empty _, cached_empty _⟩

theorem found_of_resident {u : Universe ω} {w : ω} {oid : ObjectId}
    (resident : u.resident w oid = true) : u.found w oid = u.object oid := by
  simp [Universe.found, resident]

theorem resident_of_found {u : Universe ω} {w : ω} {oid : ObjectId} {obj : Object}
    (found : u.found w oid = some obj) : u.resident w oid = true ∧ u.object oid = some obj := by
  simpa [Universe.found] using found

theorem resident_iff_found (u : Universe ω) (w : ω) (oid : ObjectId) :
    u.resident w oid = true ↔ (u.found w oid).isSome := by
  constructor
  · intro resident
    rw [found_of_resident resident]
    exact u.known w oid resident
  · intro found
    obtain ⟨obj, some_⟩ := Option.isSome_iff_exists.mp found
    exact (resident_of_found some_).1

theorem ofKind_eq_ok {expected : ObjectKind} {oid : ObjectId} {found : Option Object}
    {obj : Object} (ok : ofKind expected oid found = .ok obj) :
    found = some obj ∧ obj.kind = expected := by
  unfold ofKind at ok
  split at ok
  · cases ok
  · split at ok
    · cases ok
      exact ⟨rfl, by assumption⟩
    · cases ok

theorem blobOf_eq_ok {oid : ObjectId} {found : Option Object} {b : Bytes}
    (ok : blobOf oid found = .ok b) : found = some ⟨.blob, b⟩ := by
  unfold blobOf at ok
  rcases kinded : ofKind .blob oid found with e | ⟨kind, data⟩
  · simp [kinded, Except.map] at ok
  · obtain ⟨rfl, rfl⟩ := ofKind_eq_ok kinded
    simpa [kinded, Except.map] using ok

theorem treeOf_eq_ok {G : Gix ω} {oid : ObjectId} {found : Option Object}
    {es : List RawTreeEntry} (ok : treeOf G oid found = .ok es) :
    ∃ data, found = some ⟨.tree, data⟩ ∧ ObjectStore.parseTree G data = .ok es := by
  unfold treeOf at ok
  rcases kinded : ofKind .tree oid found with e | ⟨kind, data⟩
  · simp [kinded, Except.bind] at ok
  · obtain ⟨rfl, rfl⟩ := ofKind_eq_ok kinded
    exact ⟨data, rfl, by simpa [kinded, Except.bind] using ok⟩

section
variable {G : Gix ω} {u : Universe ω} {published : ObjectId → Prop} {s : Store ω}

def Universe.Grows (u : Universe ω) (w w' : ω) : Prop :=
  ∀ oid, u.resident w oid = true → u.resident w' oid = true

theorem found_grows {w w' : ω} (grows : u.Grows w w') {oid : ObjectId} {obj : Object}
    (found : u.found w oid = some obj) : u.found w' oid = some obj := by
  obtain ⟨resident, object⟩ := resident_of_found found
  rw [found_of_resident (grows oid resident), object]

theorem truthful_world (truthful : Truthful G u published s) {w : ω}
    (grows : u.Grows s.world w) : Truthful G u published { s with world := w } where
  trees oid e hit := by
    obtain ⟨data, found, parsed⟩ := treeOf_eq_ok (truthful.trees oid e hit)
    simp only [treeOf, found_grows grows found, ofKind, if_true, Except.bind, parsed]
  blobs oid e hit := by
    have found := blobOf_eq_ok (truthful.blobs oid e hit)
    simp only [blobOf, found_grows grows found, ofKind, if_true, Except.map]
  headers oid e hit := by
    obtain ⟨true_, present⟩ := truthful.headers oid e hit
    exact ⟨true_, present.imp_left (grows oid)⟩

theorem truthful_publish {more : ObjectId → Prop} (truthful : Truthful G u published s)
    (wider : ∀ oid, published oid → more oid) : Truthful G u more s :=
  { truthful with
    headers := fun oid e hit =>
      ⟨(truthful.headers oid e hit).1, (truthful.headers oid e hit).2.imp_right (wider oid)⟩ }

@[simp] theorem gives_access {ε α : Type} (f : Store ω → α × Store ω) (s : Store ω)
    (post : Except ε α → Store ω → Prop) :
    Gives (ExceptT.run (G.access f)) s post ↔ post (.ok (f s).1) (f s).2 := Iff.rfl

@[simp] theorem gives_ask {α : Type} (question : ω → Except String α) (s : Store ω)
    (post : Except ObjectStoreError α → Store ω → Prop) :
    Gives (ExceptT.run (G.ask question)) s post ↔
      post ((question s.world).mapError .backend) s := Iff.rfl

def commitTreeAt (G : Gix ω) (w : ω) (oid : ObjectId) : Except ObjectStoreError ObjectId :=
  ((G.tryFindObject w oid).mapError .backend).bind (commitTreeOf G oid)

def commitTimeAt (G : Gix ω) (w : ω) (oid : ObjectId) : Except ObjectStoreError Int :=
  ((G.tryFindObject w oid).mapError .backend).bind (commitTimeOf G oid)

theorem commitTree_gives (G : Gix ω) (oid : ObjectId) (s : Store ω) :
    Gives (ObjectStore.commitTree (m := StateM (Store ω)) G oid).run s fun r t =>
      r = commitTreeAt G s.world oid ∧ t = s := by
  unfold ObjectStore.commitTree ObjectStore.findKind commitTreeAt
  rw [gives_run_bind, gives_run_bind, gives_ask]
  rcases G.tryFindObject s.world oid with e | _ | obj
  · exact ⟨rfl, rfl⟩
  · exact ⟨rfl, rfl⟩
  · simp only [Except.mapError, sequel_ok, Except.bind, commitTreeOf, ofKind]
    split <;> exact ⟨rfl, rfl⟩

theorem commitTime_gives (G : Gix ω) (oid : ObjectId) (s : Store ω) :
    Gives (ObjectStore.commitTime (m := StateM (Store ω)) G oid).run s fun r t =>
      r = commitTimeAt G s.world oid ∧ t = s := by
  unfold ObjectStore.commitTime ObjectStore.findKind commitTimeAt
  rw [gives_run_bind, gives_run_bind, gives_ask]
  rcases G.tryFindObject s.world oid with e | _ | obj
  · exact ⟨rfl, rfl⟩
  · exact ⟨rfl, rfl⟩
  · simp only [Except.mapError, sequel_ok, Except.bind, commitTimeOf, ofKind]
    split <;> exact ⟨rfl, rfl⟩

structure Kept (G : Gix ω) (u : Universe ω) (published : ObjectId → Prop) (s t : Store ω) :
    Prop where
  truthful : Truthful G u published t
  world : t.world = s.world

theorem getBlob_kept (truthful : Truthful G u published s) (oid : ObjectId) :
    Kept G u published s (s.getBlob oid).2 :=
  ⟨{ truthful with blobs := BlobCache.get_cached truthful.blobs oid }, rfl⟩

theorem getTree_kept (truthful : Truthful G u published s) (oid : ObjectId) :
    Kept G u published s (s.getTree oid).2 :=
  ⟨{ truthful with trees := Lru.get_cached truthful.trees oid }, rfl⟩

theorem getHeader_kept (truthful : Truthful G u published s) (oid : ObjectId) :
    Kept G u published s (s.getHeader oid).2 :=
  ⟨{ truthful with headers := Lru.get_cached truthful.headers oid }, rfl⟩

theorem getBlob_hit (truthful : Truthful G u published s) {oid : ObjectId} {b : Bytes}
    (hit : (s.getBlob oid).1 = some b) : blobOf oid (u.found s.world oid) = .ok b := by
  simp only [Store.getBlob, BlobCache.get_value, Option.map_eq_some_iff] at hit
  obtain ⟨e, found, rfl⟩ := hit
  exact truthful.blobs oid e found

theorem getTree_hit (truthful : Truthful G u published s) {oid : ObjectId}
    {es : List RawTreeEntry} (hit : (s.getTree oid).1 = some es) :
    treeOf G oid (u.found s.world oid) = .ok es := by
  simp only [Store.getTree, Lru.get_value, Option.map_eq_some_iff] at hit
  obtain ⟨e, found, rfl⟩ := hit
  exact truthful.trees oid e found

theorem getHeader_hit (truthful : Truthful G u published s) {oid : ObjectId}
    {h : ObjectKind × Nat} (hit : (s.getHeader oid).1 = some h) :
    headerOf oid (u.object oid) = .ok h ∧ (u.resident s.world oid = true ∨ published oid) := by
  simp only [Store.getHeader, Lru.get_value, Option.map_eq_some_iff] at hit
  obtain ⟨e, found, rfl⟩ := hit
  exact truthful.headers oid e found

variable {t : Store ω}

theorem missBlob_kept (kept : Kept G u published s t) : Kept G u published s t.missBlob.2 :=
  ⟨{ kept.truthful with }, kept.world⟩

theorem missTree_kept (kept : Kept G u published s t) : Kept G u published s t.missTree.2 :=
  ⟨{ kept.truthful with }, kept.world⟩

theorem missHeader_kept (kept : Kept G u published s t) : Kept G u published s t.missHeader.2 :=
  ⟨{ kept.truthful with }, kept.world⟩

theorem putBlob_kept (kept : Kept G u published s t) {oid : ObjectId} {b : Bytes}
    (answer : blobOf oid (u.found s.world oid) = .ok b) :
    Kept G u published s (t.putBlob oid b).2 := by
  rw [← kept.world] at answer
  exact ⟨{ kept.truthful with blobs := BlobCache.put_cached kept.truthful.blobs answer },
    kept.world⟩

theorem putTree_kept (kept : Kept G u published s t) {oid : ObjectId} {es : List RawTreeEntry}
    (answer : treeOf G oid (u.found s.world oid) = .ok es) :
    Kept G u published s (t.putTree oid es).2 := by
  rw [← kept.world] at answer
  exact ⟨{ kept.truthful with trees := Lru.put_cached kept.truthful.trees answer }, kept.world⟩

theorem putHeader_kept (kept : Kept G u published s t) {oid : ObjectId} {h : ObjectKind × Nat}
    (answer : headerOf oid (u.object oid) = .ok h)
    (present : u.resident s.world oid = true ∨ published oid) :
    Kept G u published s (t.putHeader oid h).2 := by
  rw [← kept.world] at present
  exact ⟨{ kept.truthful with
    headers := Lru.put_cached kept.truthful.headers ⟨answer, present⟩ }, kept.world⟩

theorem gives_findKind (answers : G.Answers u) (expected : ObjectKind) (oid : ObjectId)
    (s : Store ω) (post : Except ObjectStoreError Object → Store ω → Prop) :
    Gives (ExceptT.run (ObjectStore.findKind G expected oid)) s post ↔
      post (ofKind expected oid (u.found s.world oid)) s := by
  unfold ObjectStore.findKind
  simp only [gives_run_bind, gives_ask, answers.object, Except.mapError, sequel_ok]
  cases u.found s.world oid with
  | none => simp [ofKind]
  | some obj =>
    simp only [ofKind]
    split <;> simp

theorem readBlob_gives (answers : G.Answers u) (truthful : Truthful G u published s)
    (oid : ObjectId) :
    Gives (ExceptT.run (ObjectStore.readBlob G oid)) s fun r t =>
      r = blobOf oid (u.found s.world oid) ∧ Kept G u published s t := by
  have kept := getBlob_kept truthful oid
  unfold ObjectStore.readBlob
  simp only [gives_run_bind, gives_access, sequel_ok]
  cases hit : (s.getBlob oid).1 with
  | some b => exact ⟨(getBlob_hit truthful hit).symm, kept⟩
  | none =>
    have missed := missBlob_kept kept
    simp only [gives_run_bind, gives_access, sequel_ok, gives_findKind answers, missed.world]
    cases kinded : ofKind .blob oid (u.found s.world oid) with
    | error e => exact ⟨by simp [blobOf, kinded, Except.map], missed⟩
    | ok obj =>
      have answer : blobOf oid (u.found s.world oid) = .ok obj.data := by
        simp [blobOf, kinded, Except.map]
      simp only [gives_run_bind, gives_access, sequel_ok, gives_run_pure]
      exact ⟨answer.symm, putBlob_kept missed answer⟩

theorem readTree_gives (answers : G.Answers u) (truthful : Truthful G u published s)
    (oid : ObjectId) :
    Gives (ExceptT.run (ObjectStore.readTree G oid)) s fun r t =>
      r = treeOf G oid (u.found s.world oid) ∧ Kept G u published s t := by
  have kept := getTree_kept truthful oid
  unfold ObjectStore.readTree
  simp only [gives_run_bind, gives_access, sequel_ok]
  cases hit : (s.getTree oid).1 with
  | some es => exact ⟨(getTree_hit truthful hit).symm, kept⟩
  | none =>
    have missed := missTree_kept kept
    simp only [gives_run_bind, gives_access, sequel_ok, gives_findKind answers, missed.world]
    cases kinded : ofKind .tree oid (u.found s.world oid) with
    | error e => exact ⟨by simp [treeOf, kinded, Except.bind], missed⟩
    | ok obj =>
      have answer : treeOf G oid (u.found s.world oid) = ObjectStore.parseTree G obj.data := by
        simp [treeOf, kinded, Except.bind]
      simp only [gives_run_bind, gives_run_mk, gives_pure, sequel_ok]
      cases parsed : ObjectStore.parseTree G obj.data with
      | error e => exact ⟨by rw [answer, parsed], missed⟩
      | ok es =>
        rw [parsed] at answer
        simp only [gives_run_bind, gives_access, sequel_ok, gives_run_pure]
        exact ⟨answer.symm, putTree_kept missed answer⟩

/-- `header` tells the truth about a resident object, and about a published one as long
    as its header stays cached. -/
theorem header_gives (answers : G.Answers u) (truthful : Truthful G u published s)
    (oid : ObjectId) :
    Gives (ExceptT.run (ObjectStore.header G oid)) s fun r t => Kept G u published s t ∧
      (r = headerOf oid (u.found s.world oid) ∨
        published oid ∧ ∃ h, r = .ok h ∧ headerOf oid (u.object oid) = .ok h) := by
  have kept := getHeader_kept truthful oid
  unfold ObjectStore.header
  simp only [gives_run_bind, gives_access, sequel_ok]
  cases hit : (s.getHeader oid).1 with
  | some h =>
    simp only [gives_run_pure]
    obtain ⟨answer, resident | listed⟩ := getHeader_hit truthful hit
    · exact ⟨kept, Or.inl (by rw [found_of_resident resident, answer])⟩
    · exact ⟨kept, Or.inr ⟨listed, h, rfl, answer⟩⟩
  | none =>
    have missed := missHeader_kept kept
    simp only [gives_run_bind, gives_access, sequel_ok, gives_ask, answers.header, missed.world,
      Except.mapError]
    cases found : u.found s.world oid with
    | none => exact ⟨missed, Or.inl rfl⟩
    | some obj =>
      obtain ⟨resident, object⟩ := resident_of_found found
      have answer : headerOf oid (u.object oid) = .ok obj.header := by rw [object]; rfl
      simp only [Option.map_some, gives_run_bind, gives_access, sequel_ok, gives_run_pure]
      exact ⟨putHeader_kept missed answer (Or.inl resident), Or.inl rfl⟩

theorem contains_gives (answers : G.Answers u) (oid : ObjectId) (s : Store ω) :
    Gives (ObjectStore.contains G oid) s fun r t => r = u.resident s.world oid ∧ t = s := by
  unfold ObjectStore.contains
  simp only [answers.object]
  refine ⟨?_, rfl⟩
  rw [Bool.eq_iff_iff]
  exact (resident_iff_found u s.world oid).symm

def At (G : Gix ω) (u : Universe ω) (published : ObjectId → Prop) (w : ω) (s : Store ω) : Prop :=
  Truthful G u published s ∧ s.world = w

theorem readTree_returns (answers : G.Answers u) (w : ω) (oid : ObjectId) :
    Returns (At G u published w) (ObjectStore.readTree G oid)
      ((G.uncached (u.found w) (G.findReference w)).readTree oid) := by
  intro s given
  obtain ⟨truthful, rfl⟩ := given
  exact (readTree_gives answers truthful oid).mono fun r t given =>
    ⟨given.1, given.2.truthful, given.2.world⟩

theorem commitTree_returns (answers : G.Answers u) (w : ω) (oid : ObjectId) :
    Returns (At G u published w) (ObjectStore.commitTree G oid)
      ((G.uncached (u.found w) (G.findReference w)).commitTree oid) := by
  intro s given
  obtain ⟨truthful, rfl⟩ := given
  apply (commitTree_gives G oid s).mono
  intro _ _ given
  obtain ⟨rfl, rfl⟩ := given
  refine ⟨?_, truthful, rfl⟩
  rw [commitTreeAt, answers.object]
  rfl

theorem resolveRef_returns (w : ω) (name : Bytes) :
    Returns (At G u published w) (ObjectStore.resolveRef G name)
      ((G.uncached (u.found w) (G.findReference w)).resolveRef name) := by
  intro s given
  obtain ⟨truthful, rfl⟩ := given
  exact ⟨rfl, truthful, rfl⟩

end
end ProjgitStore
