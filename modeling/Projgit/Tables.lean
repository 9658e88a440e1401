import Projgit.LocalMount

/-!
Repositories written out as tables, with a gix that answers from them and the hash
function of today's standard library. What a mount needs of its repository becomes a
check over the tables, and the merged tree a finite list of nodes.
-/
namespace ProjgitTables
open Utf8Bytes SlashPath ProjgitStore ProjgitProjection ProjgitFs ProjgitMerged ProjgitServing

/-- A commit is its tree and its committer's seconds. -/
structure Tables where
  commits : List (ObjectId × ObjectId × Nat)
  trees : List (ObjectId × List RawTreeEntry)
  blobs : List (ObjectId × Bytes)

/-- What is outside the process: the objects not fetched yet, and the refs. -/
structure World where
  absent : List ObjectId
  refs : List (Bytes × ObjectId)

def ascii (text : String) : Bytes := text.toList.map fun c => UInt8.ofNat c.toNat

def encodeEntry (e : RawTreeEntry) : Bytes :=
  (Nat.toDigits 8 e.modeRaw.toNat).map (fun c => UInt8.ofNat c.toNat) ++
    32 :: e.name ++ 0 :: e.oid.bytes

def encodeTree (es : List RawTreeEntry) : Bytes := es.flatMap encodeEntry

def encodeCommit (tree : ObjectId) (seconds : Nat) : Bytes :=
  ascii ("tree " ++ tree.toHex ++ "\nauthor a <a@b> " ++ toString seconds ++
    " +0000\ncommitter a <a@b> " ++ toString seconds ++ " +0000\n\nm\n")

namespace Tables
variable (t : Tables)

def object (oid : ObjectId) : Option Object :=
  match t.trees.lookup oid with
  | some es => some ⟨.tree, encodeTree es⟩
  | none =>
    match t.blobs.lookup oid with
    | some bytes => some ⟨.blob, bytes⟩
    | none => (t.commits.lookup oid).map fun c => ⟨.commit, encodeCommit c.1 c.2⟩

def objects : Universe World where
  object := t.object
  resident w oid := !w.absent.contains oid && (t.object oid).isSome
  known _ _ resident := by simp_all

/-- Objects of the tables are parsed back by looking for their text. -/
def gix : Gix World where
  tryFindObject w oid := .ok (t.objects.found w oid)
  tryFindHeader w oid := .ok ((t.objects.found w oid).map Object.header)
  treeIter data :=
    match t.trees.find? fun row => encodeTree row.2 = data with
    | some row => row.2.map .ok
    | none => [.error "failed to parse tree"]
  commitTreeId data :=
    match t.commits.find? fun row => encodeCommit row.2.1 row.2.2 = data with
    | some row => .ok row.2.1
    | none => .error "failed to parse commit"
  committerSeconds data :=
    match t.commits.find? fun row => encodeCommit row.2.1 row.2.2 = data with
    | some row => .ok row.2.2
    | none => .error "failed to parse commit"
  findReference w name :=
    match w.refs.lookup name with
    | some oid => .ok oid
    | none => .error "the reference did not exist"

theorem answers : t.gix.Answers t.objects := ⟨fun _ _ => rfl, fun _ _ => rfl⟩

theorem allLocal (refs : List (Bytes × ObjectId)) : AllLocal t.objects ⟨[], refs⟩ := by
  intro oid present
  simpa [objects] using present

def Parses : Prop := ∀ row ∈ t.trees, ∀ other ∈ t.trees,
  encodeTree row.2 = encodeTree other.2 → row.2 = other.2

instance : Decidable t.Parses := inferInstanceAs (Decidable (∀ row ∈ t.trees, ∀ other ∈ t.trees, _))

variable {t}

theorem lookup_member {α : Type} {table : List (ObjectId × α)} {oid : ObjectId} {a : α}
    (hit : table.lookup oid = some a) : (oid, a) ∈ table := by
  obtain ⟨before, after, rfl, -⟩ := List.lookup_eq_some_iff.mp hit
  simp

theorem treeOf_hit (parses : t.Parses) {oid : ObjectId} {es : List RawTreeEntry}
    (hit : t.trees.lookup oid = some es) : treeOf t.gix oid (t.objects.object oid) = .ok es := by
  have object : t.objects.object oid = some ⟨.tree, encodeTree es⟩ := by
    simp [objects, Tables.object, hit]
  have member := lookup_member hit
  have parsed : t.gix.treeIter (encodeTree es) = es.map .ok := by
    cases search : t.trees.find? fun row => encodeTree row.2 = encodeTree es with
    | none =>
      have missed := List.find?_eq_none.mp search (oid, es) member
      simp at missed
    | some row =>
      have same : encodeTree row.2 = encodeTree es := by
        simpa using List.find?_some search
      have found := parses row (List.mem_of_find?_eq_some search) (oid, es) member same
      simp [gix, search, found]
  have each : ∀ rest : List RawTreeEntry,
      ((rest.map Except.ok : List (Except String RawTreeEntry)).mapM fun entry =>
        entry.mapError ObjectStoreError.backend) = .ok rest := by
    intro rest
    induction rest with
    | nil => rfl
    | cons e more ih =>
      rw [List.map_cons, List.mapM_cons, ih]
      rfl
  rw [object]
  simp only [treeOf, ofKind, if_true, Except.bind, ObjectStore.parseTree, parsed]
  exact each es

theorem treeOf_inv {oid : ObjectId} {es : List RawTreeEntry} (parses : t.Parses)
    (tree : treeOf t.gix oid (t.objects.object oid) = .ok es) : t.trees.lookup oid = some es := by
  cases hit : t.trees.lookup oid with
  | some other =>
    rw [treeOf_hit parses hit] at tree
    cases tree
    rfl
  | none =>
    cases blob : t.blobs.lookup oid with
    | some bytes =>
      have object : t.objects.object oid = some ⟨.blob, bytes⟩ := by
        simp [objects, Tables.object, hit, blob]
      rw [object] at tree
      cases tree
    | none =>
      cases commit : t.commits.lookup oid with
      | none =>
        have object : t.objects.object oid = none := by
          simp [objects, Tables.object, hit, blob, commit]
        rw [object] at tree
        cases tree
      | some c =>
        have object : t.objects.object oid = some ⟨.commit, encodeCommit c.1 c.2⟩ := by
          simp [objects, Tables.object, hit, blob, commit]
        rw [object] at tree
        cases tree

variable (t) in
def CommitsParse : Prop := ∀ row ∈ t.commits, ∀ other ∈ t.commits,
  encodeCommit row.2.1 row.2.2 = encodeCommit other.2.1 other.2.2 → row.2 = other.2

instance : Decidable t.CommitsParse :=
  inferInstanceAs (Decidable (∀ row ∈ t.commits, ∀ other ∈ t.commits, _))

variable (t) in
def IsCommit (oid : ObjectId) (c : ObjectId × Nat) : Prop :=
  t.trees.lookup oid = none ∧ t.blobs.lookup oid = none ∧ t.commits.lookup oid = some c

instance (oid : ObjectId) (c : ObjectId × Nat) : Decidable (t.IsCommit oid c) :=
  inferInstanceAs (Decidable (_ ∧ _))

theorem commit_hit (parses : t.CommitsParse) {oid : ObjectId} {c : ObjectId × Nat}
    (isCommit : t.IsCommit oid c) :
    commitTreeOf t.gix oid (t.objects.object oid) = .ok c.1 ∧
      commitTimeOf t.gix oid (t.objects.object oid) = .ok c.2 := by
  obtain ⟨noTree, noBlob, hit⟩ := isCommit
  have object : t.objects.object oid = some ⟨.commit, encodeCommit c.1 c.2⟩ := by
    simp [objects, Tables.object, noTree, noBlob, hit]
  have member := lookup_member hit
  cases search : t.commits.find? fun row => encodeCommit row.2.1 row.2.2 = encodeCommit c.1 c.2 with
  | none =>
    have missed := List.find?_eq_none.mp search (oid, c) member
    simp at missed
  | some row =>
    have same : encodeCommit row.2.1 row.2.2 = encodeCommit c.1 c.2 := by
      simpa using List.find?_some search
    have found : row.2 = c := parses row (List.mem_of_find?_eq_some search) (oid, c) member same
    rw [object]
    simp [commitTreeOf, commitTimeOf, ofKind, Except.bind, gix, search, found, Except.mapError]

theorem commitTreeOf_inv (parses : t.CommitsParse) {oid tree : ObjectId}
    (commit : commitTreeOf t.gix oid (t.objects.object oid) = .ok tree) :
    ∃ seconds, (oid, tree, seconds) ∈ t.commits := by
  cases isTree : t.trees.lookup oid with
  | some es =>
    have object : t.objects.object oid = some ⟨.tree, encodeTree es⟩ := by
      simp [objects, Tables.object, isTree]
    rw [object] at commit
    cases commit
  | none =>
    cases isBlob : t.blobs.lookup oid with
    | some bytes =>
      have object : t.objects.object oid = some ⟨.blob, bytes⟩ := by
        simp [objects, Tables.object, isTree, isBlob]
      rw [object] at commit
      cases commit
    | none =>
      cases hit : t.commits.lookup oid with
      | none =>
        have object : t.objects.object oid = none := by
          simp [objects, Tables.object, isTree, isBlob, hit]
        rw [object] at commit
        cases commit
      | some c =>
        have named := (commit_hit parses ⟨isTree, isBlob, hit⟩).1
        cases named.symm.trans commit
        exact ⟨c.2, lookup_member hit⟩

variable (t) in
def backs (e : RawTreeEntry) : Bool :=
  match EntryMode.fromRaw e.modeRaw with
  | .directory => (t.trees.lookup e.oid).isSome
  | .gitlink => true
  | _ => (t.trees.lookup e.oid).isNone && (t.blobs.lookup e.oid).isSome

variable (t) in
def Closed : Prop := ∀ row ∈ t.trees, ∀ e ∈ row.2, t.backs e = true

instance : Decidable t.Closed := inferInstanceAs (Decidable (∀ row ∈ t.trees, ∀ e ∈ row.2, _))

theorem backed_of_closed (parses : t.Parses) (closed : t.Closed) : Backed t.gix t.objects := by
  intro oid es tree e among
  have entry := closed (oid, es) (lookup_member (treeOf_inv parses tree)) e among
  have blob : ((t.trees.lookup e.oid).isNone && (t.blobs.lookup e.oid).isSome) = true →
      ∃ bytes, t.objects.object e.oid = some ⟨.blob, bytes⟩ := by
    intro both
    obtain ⟨noTree, isBlob⟩ := Bool.and_eq_true_iff.mp both
    obtain ⟨bytes, hit⟩ := Option.isSome_iff_exists.mp isBlob
    exact ⟨bytes, by simp [objects, Tables.object, Option.isNone_iff_eq_none.mp noTree, hit]⟩
  unfold backs at entry
  cases mode : EntryMode.fromRaw e.modeRaw <;> simp only [mode] at entry ⊢
  · exact blob entry
  · exact blob entry
  · exact blob entry
  · obtain ⟨inner, hit⟩ := Option.isSome_iff_exists.mp entry
    exact ⟨inner, treeOf_hit parses hit⟩
  · trivial

end Tables

def apart (hasher : Bytes → UInt64) (id : UInt64) (a b : Bytes × ResolvedEntry) : Bool :=
  match a.2, b.2 with
  | .tree e, .tree f =>
    (hashTree hasher id e.oid a.1 != hashTree hasher id f.oid b.1) ||
      (e.oid == f.oid && a.1 == b.1)
  | .synthetic _ _, .synthetic _ _ =>
    (hashSynthetic hasher id a.1 != hashSynthetic hasher id b.1) || a.1 == b.1
  | _, _ => true

theorem distinctKeys_of_apart {hasher : Bytes → UInt64} {id : UInt64}
    {keys : List (Bytes × ResolvedEntry)}
    (check : ∀ a ∈ keys, ∀ b ∈ keys, apart hasher id a b = true) : DistinctKeys hasher id keys where
  tree p q e f first second same := by
    simpa [apart, same] using check _ first _ second
  synthetic p q a b e f first second same := by
    simpa [apart, same] using check _ first _ second

section DefaultHasher

structure Sip where
  v0 : UInt64
  v1 : UInt64
  v2 : UInt64
  v3 : UInt64

def rotateLeft (x k : UInt64) : UInt64 := (x <<< k) ||| (x >>> (64 - k))

def Sip.round : Sip → Sip
  | ⟨v0, v1, v2, v3⟩ =>
    let v0 := v0 + v1
    let v2 := v2 + v3
    let v1 := rotateLeft v1 13 ^^^ v0
    let v0 := rotateLeft v0 32
    let v3 := rotateLeft v3 16 ^^^ v2
    let v0 := v0 + v3
    let v3 := rotateLeft v3 21 ^^^ v0
    let v2 := v2 + v1
    let v1 := rotateLeft v1 17 ^^^ v2
    let v2 := rotateLeft v2 32
    ⟨v0, v1, v2, v3⟩

def Sip.absorb (s : Sip) (m : UInt64) : Sip :=
  let t := Sip.round { s with v3 := s.v3 ^^^ m }
  { t with v0 := t.v0 ^^^ m }

/-- Little-endian. -/
def word : Bytes → UInt64
  | [] => 0
  | b :: rest => b.toUInt64 ||| (word rest <<< 8)

/-- Whole words first; the last one holds what is left and the length. -/
def Sip.absorbAll (length : UInt64) : Nat → Sip → Bytes → Sip
  | 0, s, tail => s.absorb (word tail ||| (length <<< 56))
  | n + 1, s, bytes => Sip.absorbAll length n (s.absorb (word (bytes.take 8))) (bytes.drop 8)

/-- SipHash-1-3 under the zero key, which is what `DefaultHasher` runs. -/
def sipHash (bytes : Bytes) : UInt64 :=
  let s := Sip.absorbAll (UInt64.ofNat bytes.length) (bytes.length / 8)
    ⟨0x736f6d6570736575, 0x646f72616e646f6d, 0x6c7967656e657261, 0x7465646279746573⟩ bytes
  let t := (Sip.round { s with v2 := s.v2 ^^^ 0xff }).round.round
  t.v0 ^^^ t.v1 ^^^ t.v2 ^^^ t.v3

example : sipHash [] = 15130871412783076140 := by decide +kernel

end DefaultHasher

def dotGit : RootOverlay where
  entries := [(ascii ".git", .directory [(ascii "HEAD", .file (ascii "ref: refs/heads/main\n") 0o100644)])]
  sorted := by
    refine .directory (by simp) ?_
    simp only [List.mem_singleton, forall_eq]
    refine .directory (by simp) ?_
    simp only [List.mem_singleton, forall_eq]
    exact .file _ _

def Tables.mountSpec (t : Tables) (projection : Projection)
    (fetcher : Fetcher (StateM (Store World))) : MountSpec World where
  hasher := sipHash
  gix := t.gix
  fetcher := fetcher
  projection := projection
  overlay := dotGit
  projectionId := 7
  blobPrefetch := false
  blobCap := 65536

namespace Tables
open Stateful
variable {t : Tables} {oid : ObjectId} {c : ObjectId × Nat}

theorem rooted_commit (parses : t.CommitsParse) (isCommit : t.IsCommit oid c)
    (refs : Bytes → Except String ObjectId) :
    (Projection.commit oid).rootTree (t.gix.uncached t.objects.object refs) = pure c.1 := by
  have tree := (commit_hit parses isCommit).1
  change (commitTreeOf t.gix oid (t.objects.object oid)).mapError ProjectionError.store = _
  rw [tree]
  rfl

theorem setting_commit (parses : t.Parses) (closed : t.Closed) (commits : t.CommitsParse)
    (isCommit : t.IsCommit oid c) {es : List RawTreeEntry} (root : t.trees.lookup c.1 = some es)
    (fetcher : Fetcher (StateM (Store World))) (time : Int) (refs : List (Bytes × ObjectId)) :
    Setting ((t.mountSpec (.commit oid) fetcher).mount time) t.objects ⟨[], refs⟩ c.1 where
  answers := t.answers
  allLocal := t.allLocal refs
  backed := backed_of_closed parses closed
  rooted := rooted_commit commits isCommit _
  rootTree := ⟨es, treeOf_hit parses root⟩

theorem new_built (parses : t.CommitsParse) (isCommit : t.IsCommit oid c)
    {projection : Projection} (fetcher : Fetcher (StateM (Store World))) {store : Store World}
    (resolved : resolveAt t.gix store.world projection = .ok oid)
    (here : t.objects.found store.world oid = t.objects.object oid) :
    ((t.mountSpec projection fetcher).new.run.run store).1 =
      .ok ((t.mountSpec projection fetcher).mount c.2,
        (t.mountSpec projection fetcher).start store) := by
  have time : commitTimeAt t.gix store.world oid = .ok (c.2 : Int) := by
    rw [commitTimeAt, t.answers.object, here]
    exact (commit_hit parses isCommit).2
  apply (new_gives (t.mountSpec projection fetcher) store).trans
  change (resolveAt t.gix store.world projection).bind (fun oid =>
    ((commitTimeAt t.gix store.world oid).mapError _).map _) = _
  rw [resolved]
  change ((commitTimeAt t.gix store.world oid).mapError _).map _ = _
  rw [time]
  rfl

def fetch (t : Tables) (oid : ObjectId) : ExceptT FetcherError (StateM (Store World)) Unit :=
  ExceptT.mk (modifyGet fun s =>
    if (t.object oid).isSome then
      (.ok (), { s with world := { s.world with absent := s.world.absent.filter (· ≠ oid) } })
    else (.error (.refused oid "not our ref"), s))

def remote (t : Tables) : Fetcher (StateM (Store World)) := .ofFetchObject t.fetch

theorem remote_honest (t : Tables) : Honest t.gix t.objects t.remote := by
  refine honest_ofFetchObject fun oid s => ?_
  unfold fetch
  rw [gives_run_mk, gives_modifyGet]
  by_cases known : (t.object oid).isSome = true
  · simp only [known, if_true]
    refine ⟨extends_world fun other resident => ?_, fun _ => by simp [objects, known]⟩
    simp only [objects, Bool.and_eq_true, Bool.not_eq_true', List.contains_eq_mem,
      decide_eq_false_iff_not] at resident ⊢
    exact ⟨fun kept => resident.1 (List.mem_filter.mp kept).1, resident.2⟩
  · simp only [known, Bool.false_eq_true, if_false]
    exact ⟨extends_refl s, by simp⟩

theorem remote_supplies (t : Tables) (oid : ObjectId) (known : (t.objects.object oid).isSome)
    (s : Store World) : Gives (t.remote.fetchObject oid).run s fun r _ => r = .ok () := by
  change Gives (t.fetch oid).run s _
  unfold fetch
  rw [gives_run_mk, gives_modifyGet]
  have isSome : (t.object oid).isSome = true := known
  simp only [isSome, if_true]

end Tables
end ProjgitTables
