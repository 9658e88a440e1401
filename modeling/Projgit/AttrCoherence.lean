import Projgit.PartialClone

/-!
`lookup` computes attributes from the object store; `getattr` rebuilds them from the
first snapshot that was cached. Over one commit the two agree along every run. Names are
any bytes here and objects may be missing, so what is cached is described by the text of
its path, not by a node of the merged tree.
-/
namespace ProjgitServing
open Utf8Bytes SlashPath ProjgitStore ProjgitProjection ProjgitFs Stateful LabelledRuns
variable {ω : Type}

/-- A projection of this commit, by no ref that could move. -/
def OfCommit (c : ObjectId) : Projection → Prop
  | .ref _ => False
  | .commit oid => oid = c
  | .subtree oid _ => oid = c

def LeadsTo (M : Mount ω) (u : Universe ω) (full : Bytes) (found : ResolvedEntry) : Prop :=
  ∀ refs, M.projection.lookup (M.gix.uncached u.object refs) M.overlay full = pure found

def inodeOf (hasher : Bytes → UInt64) (id : UInt64) (full : Bytes) : ResolvedEntry → UInt64
  | .tree e => hashTree hasher id e.oid full
  | .synthetic _ _ => syntheticInode hasher id full

def objectSize (u : Universe ω) (oid : ObjectId) : Nat :=
  ((u.object oid).map fun obj => obj.data.length).getD 0

def snapshotOf (u : Universe ω) (full : Bytes) : ResolvedEntry → AttrSnapshot
  | .tree e =>
    match e.mode with
    | .regularFile => .treeFile e.oid (objectSize u e.oid) 0o644
    | .executableFile => .treeFile e.oid (objectSize u e.oid) 0o755
    | .directory => .treeDir e.oid full
    | .symlink => .treeSymlink e.oid (objectSize u e.oid)
    | .gitlink => .gitlink
  | .synthetic _ (.file content modeRaw) =>
    .syntheticFile content (if modeRaw = 0o100755 then 0o755 else 0o644)
  | .synthetic _ (.directory children) => .syntheticDir children full
  | .synthetic _ (.symlink target) => .syntheticSymlink target

def attrOf (M : Mount ω) (inode : UInt64) (snap : AttrSnapshot) : Attr :=
  M.attr inode snap.stat.1 snap.stat.2.1 snap.stat.2.2

def attrGiven (M : Mount ω) (s : FsState ω) : FsAction ω → Option Attr
  | .lookup parent name => ((M.lookup parent name).run.run s).1.toOption
  | _ => none

/-- A mount of one commit over a truthful gix and an honest fetcher. -/
structure Pinned (M : Mount ω) (u : Universe ω) (w₀ : ω) (c : ObjectId) : Prop where
  answers : M.gix.Answers u
  honest : Honest M.gix u M.fetcher
  ofCommit : OfCommit c M.projection
  commit : u.resident w₀ c = true

section Attributes
variable (M : Mount ω) (i : UInt64) (snap : AttrSnapshot)

@[simp] theorem attrOf_inode : (attrOf M i snap).inode = i := by
  cases snap <;> rfl

@[simp] theorem attrOf_kind : (attrOf M i snap).kind = snap.stat.1 := by
  cases snap <;> rfl

end Attributes

section Keys
variable {M : Mount ω} {u : Universe ω} {id : UInt64} {keys : List (Bytes × ResolvedEntry)}

structure Keyed (M : Mount ω) (u : Universe ω) (id : UInt64)
    (keys : List (Bytes × ResolvedEntry)) (i : UInt64) (snap : AttrSnapshot) (full : Bytes)
    (found : ResolvedEntry) : Prop where
  used : (full, found) ∈ keys
  leads : LeadsTo M u full found
  inode : i = inodeOf M.hasher id full found
  snapshot : snap = snapshotOf u full found

theorem inodeOf_ne_root (hasher : Bytes → UInt64) (id : UInt64) (full : Bytes)
    (found : ResolvedEntry) : inodeOf hasher id full found ≠ rootInode := by
  cases found with
  | tree e => exact hashTree_ne_root _ _ _ _
  | synthetic label e => exact syntheticInode_ne_root _ _ _

theorem leadsTo_unique {full : Bytes} {found other : ResolvedEntry}
    (first : LeadsTo M u full found) (second : LeadsTo M u full other) : found = other := by
  have same := (first fun _ => .error "").symm.trans (second fun _ => .error "")
  exact Except.ok.inj same

theorem key_of_inode (distinct : DistinctKeys M.hasher id keys) {p q : Bytes}
    {found other : ResolvedEntry} (first : (p, found) ∈ keys) (second : (q, other) ∈ keys)
    (same : inodeOf M.hasher id p found = inodeOf M.hasher id q other) : p = q := by
  rcases found with e | ⟨a, e⟩ <;> rcases other with f | ⟨b, f⟩
  · exact (distinct.tree p q e f first second same).2
  · exact absurd same.symm (syntheticInode_ne_hashTree _ _ _ _ _)
  · exact absurd same (syntheticInode_ne_hashTree _ _ _ _ _)
  · exact distinct.synthetic p q a b e f first second (syntheticInode_injective same)

theorem Keyed.snapshot_unique (distinct : DistinctKeys M.hasher id keys) {i : UInt64}
    {snap other : AttrSnapshot} {p q : Bytes} {found found' : ResolvedEntry}
    (first : Keyed M u id keys i snap p found) (second : Keyed M u id keys i other q found') :
    snap = other := by
  obtain rfl := key_of_inode distinct first.used second.used
    (first.inode.symm.trans second.inode)
  obtain rfl := leadsTo_unique first.leads second.leads
  rw [first.snapshot, second.snapshot]

end Keys

section Calls
variable {M : Mount ω} {u : Universe ω} {w₀ : ω} {c : ObjectId} {id : UInt64}
  {keys : List (Bytes × ResolvedEntry)} {told : List Attr} {s t : FsState ω} {store : Store ω}

theorem OfCommit.notRef {projection : Projection} (ofCommit : OfCommit c projection)
    (name : Bytes) : projection ≠ .ref name := by
  rintro rfl
  exact ofCommit

theorem OfCommit.starts {projection : Projection} (ofCommit : OfCommit c projection)
    (F : StoreHandle Id) : startsAt F projection c := by
  cases projection with
  | ref name => exact ofCommit.elim
  | commit oid => exact congrArg pure ofCommit
  | subtree oid path => exact congrArg pure ofCommit

theorem Pinned.simulates (pinned : Pinned M u w₀ c) (w : ω) :
    Simulates (At M.gix u (fun _ => True) w) M.bare
      (M.gix.uncached (u.found w) (M.gix.findReference w)) :=
  ⟨readTree_returns pinned.answers w, commitTree_returns pinned.answers w, resolveRef_returns w⟩

/-- What the bare store resolves is what the whole universe would. -/
theorem resolve_sound (pinned : Pinned M u w₀ c) (partly : Partly M.gix u w₀ store)
    (full : Bytes) :
    Gives (M.projection.lookup M.bare M.overlay full).run store fun r after =>
      Partly M.gix u w₀ after ∧ ∀ found, r = .ok found → LeadsTo M u full found := by
  refine (lookup_returns (pinned.simulates store.world) M.projection M.overlay full store
    ⟨partly.1, rfl⟩).mono ?_
  intro r after given
  obtain ⟨value, truthful, world⟩ := given
  refine ⟨⟨truthful, world ▸ partly.2⟩, fun found returned refs => ?_⟩
  have short : Short (M.gix.uncached (u.found store.world) (M.gix.findReference store.world))
      (M.gix.uncached u.object refs) (fun oid => u.resident store.world oid = true) M.projection :=
    short_found M.gix u store.world fun name isRef => absurd isRef (pinned.ofCommit.notRef name)
  have follows := lookup_follows short (pinned.ofCommit.starts _)
    (partly.2 c pinned.commit) M.overlay full
  exact follows.returned (value.symm.trans returned)

theorem header_sound (pinned : Pinned M u w₀ c) (partly : Partly M.gix u w₀ store)
    (oid : ObjectId) :
    Gives (M.hydrating.header oid).run store fun r after => Partly M.gix u w₀ after ∧
      ∀ kind size, r = .ok (kind, size) → size = objectSize u oid := by
  refine (sound_read (headerOf_readOf oid) pinned.honest
    (header_plain pinned.answers oid) partly).mono ?_
  intro r after given
  refine ⟨given.1, fun kind size returned => ?_⟩
  have told := given.2 _ returned
  cases object : u.object oid with
  | none =>
    rw [object] at told
    cases told
  | some obj =>
    rw [object] at told
    cases told
    simp [objectSize, object]

theorem sized_sound (pinned : Pinned M u w₀ c) (partly : Partly M.gix u w₀ s.store)
    (oid : ObjectId) (i : UInt64) (snap : Nat → AttrSnapshot) :
    Gives (onStoreOr hydrateToFs (M.hydrating.header oid) >>= fun header =>
        (pure (i, snap header.2, (snap header.2).stat) : FsM ω _)).run s fun r t =>
      Quiet (Partly M.gix u w₀) s t ∧ ∀ answer, r = .ok answer →
        answer = (i, snap (objectSize u oid), (snap (objectSize u oid)).stat) := by
  rw [gives_run_bind, gives_onStoreOr]
  apply (header_sound pinned partly oid).mono
  rintro (e | ⟨kind, size⟩) store ⟨partlyT, told⟩
  · exact ⟨⟨rfl, rfl, rfl, partlyT⟩, nofun⟩
  · refine ⟨⟨rfl, rfl, rfl, partlyT⟩, ?_⟩
    rintro answer ⟨⟩
    rw [told kind size rfl]

theorem snapshotForTree_sound (pinned : Pinned M u w₀ c) (partly : Partly M.gix u w₀ s.store)
    (full : Bytes) (e : TreeEntry) :
    Gives (M.snapshotForTree e full).run s fun r t => Quiet (Partly M.gix u w₀) s t ∧
      ∀ answer, r = .ok answer → answer = (inodeOf M.hasher s.allocator.projectionId full (.tree e),
        snapshotOf u full (.tree e), (snapshotOf u full (.tree e)).stat) := by
  unfold Mount.snapshotForTree
  rw [gives_run_bind, gives_run_lift, gives_allocate]
  simp only [sequel_ok]
  have partlyA : Partly M.gix u w₀ ({ s with
    allocator := (s.allocator.forTreeEntry M.hasher e.oid full).2 } : FsState ω).store := partly
  have since : ∀ t, Quiet (Partly M.gix u w₀)
      { s with allocator := (s.allocator.forTreeEntry M.hasher e.oid full).2 } t →
      Quiet (Partly M.gix u w₀) s t := fun t quiet =>
    ⟨quiet.attrs, quiet.channel, quiet.projectionId.trans (remember_id _ _ _), quiet.store⟩
  have named : ∀ snap, snapshotOf u full (.tree e) = snap → ∀ answer,
      answer = (hashTree M.hasher s.allocator.projectionId e.oid full, snap, snap.stat) →
      answer = (inodeOf M.hasher s.allocator.projectionId full (.tree e),
        snapshotOf u full (.tree e), (snapshotOf u full (.tree e)).stat) := by
    rintro snap rfl answer rfl
    rfl
  cases mode : e.mode with
  | directory =>
    refine ⟨since _ ⟨rfl, rfl, rfl, partly⟩, ?_⟩
    rintro answer ⟨⟩
    exact named (.treeDir e.oid full) (by simp only [snapshotOf, mode]) _ rfl
  | gitlink =>
    refine ⟨since _ ⟨rfl, rfl, rfl, partly⟩, ?_⟩
    rintro answer ⟨⟩
    exact named .gitlink (by simp only [snapshotOf, mode]) _ rfl
  | regularFile =>
    exact (sized_sound pinned partlyA e.oid _ (.treeFile e.oid · 0o644)).mono fun r t given =>
      ⟨since t given.1, fun answer returned =>
        named _ (by simp only [snapshotOf, mode]) answer (given.2 answer returned)⟩
  | executableFile =>
    exact (sized_sound pinned partlyA e.oid _ (.treeFile e.oid · 0o755)).mono fun r t given =>
      ⟨since t given.1, fun answer returned =>
        named _ (by simp only [snapshotOf, mode]) answer (given.2 answer returned)⟩
  | symlink =>
    exact (sized_sound pinned partlyA e.oid _ (.treeSymlink e.oid ·)).mono fun r t given =>
      ⟨since t given.1, fun answer returned =>
        named _ (by simp only [snapshotOf, mode]) answer (given.2 answer returned)⟩

theorem snapshotForSynthetic_sound (partly : Partly M.gix u w₀ s.store) (full label : Bytes)
    (e : SyntheticEntry) :
    Gives (liftM (M.snapshotForSynthetic e full) : FsM ω _).run s fun r t =>
      Quiet (Partly M.gix u w₀) s t ∧ ∀ answer, r = .ok answer →
        answer = (inodeOf M.hasher s.allocator.projectionId full (.synthetic label e),
          snapshotOf u full (.synthetic label e),
          (snapshotOf u full (.synthetic label e)).stat) := by
  have quiet : Quiet (Partly M.gix u w₀) s
      { s with allocator := (s.allocator.forSynthetic M.hasher full).2 } :=
    ⟨rfl, rfl, remember_id _ _ _, partly⟩
  cases e with
  | file content mode => exact ⟨quiet, fun answer returned => (Except.ok.inj returned).symm⟩
  | directory children => exact ⟨quiet, fun answer returned => (Except.ok.inj returned).symm⟩
  | symlink target => exact ⟨quiet, fun answer returned => (Except.ok.inj returned).symm⟩

/-- The two case analyses agree: `lookup` answers what `getattr` will read off the
    snapshot, and both depend on the key alone. -/
theorem snapshotFor_sound (pinned : Pinned M u w₀ c) (partly : Partly M.gix u w₀ s.store)
    (projectionId : s.allocator.projectionId = id) (full : Bytes) (found : ResolvedEntry) :
    Gives (M.snapshotFor found full).run s fun r t => Quiet (Partly M.gix u w₀) s t ∧
      ∀ answer, r = .ok answer → answer = (inodeOf M.hasher id full found,
        snapshotOf u full found, (snapshotOf u full found).stat) := by
  subst projectionId
  cases found with
  | tree e => exact snapshotForTree_sound pinned partly full e
  | synthetic label e => exact snapshotForSynthetic_sound partly full label e

/-- Every cached snapshot is that of a key, and its attributes have been told. -/
structure Coherent (M : Mount ω) (u : Universe ω) (w₀ : ω) (id : UInt64)
    (keys : List (Bytes × ResolvedEntry)) (told : List Attr) (s : FsState ω) : Prop where
  projectionId : s.allocator.projectionId = id
  root : s.attrs.lookup rootInode = some .root
  keyed : ∀ i snap, i ≠ rootInode → s.attrs.lookup i = some snap →
    ∃ full found, Keyed M u id keys i snap full found
  told : ∀ i snap, i ≠ rootInode → s.attrs.lookup i = some snap → ∃ a ∈ told, a.inode = i
  store : Partly M.gix u w₀ s.store

theorem Coherent.of_attrs (coherent : Coherent M u w₀ id keys told s)
    (attrs : t.attrs = s.attrs) (projectionId : t.allocator.projectionId = s.allocator.projectionId)
    (store : Partly M.gix u w₀ t.store) : Coherent M u w₀ id keys told t where
  projectionId := projectionId.trans coherent.projectionId
  root := by rw [attrs]; exact coherent.root
  keyed i snap inner cached := coherent.keyed i snap inner (by rw [← attrs]; exact cached)
  told i snap inner cached := coherent.told i snap inner (by rw [← attrs]; exact cached)
  store := store

theorem Coherent.quiet (coherent : Coherent M u w₀ id keys told s)
    (quiet : Quiet (Partly M.gix u w₀) s t) : Coherent M u w₀ id keys told t :=
  coherent.of_attrs quiet.attrs quiet.projectionId quiet.store

theorem publish_first (i : UInt64) (snap : AttrSnapshot) (s : FsState ω) :
    Gives (publish i snap) s fun _ t => Remembers s t ∧
      t.attrs.lookup i = some ((s.attrs.lookup i).getD snap) ∧
      (∀ k, k ≠ i → t.attrs.lookup k = s.attrs.lookup k) ∧
      t.allocator = s.allocator ∧ t.store = s.store := by
  unfold publish
  rw [gives_modify]
  cases there : s.attrs.lookup i with
  | some old => exact ⟨fun _ _ cached => cached, there, fun _ _ => rfl, rfl, rfl⟩
  | none =>
    refine ⟨fun k old cached => ?_, AList.lookup_insert _,
      fun k other => AList.lookup_insert_ne other, rfl, rfl⟩
    have other : k ≠ i := by
      rintro rfl
      rw [there] at cached
      cases cached
    rw [← cached]
    exact AList.lookup_insert_ne other

theorem publish_coherent (distinct : DistinctKeys M.hasher id keys)
    (coherent : Coherent M u w₀ id keys told s) {i : UInt64} {snap : AttrSnapshot} {full : Bytes}
    {found : ResolvedEntry} (key : Keyed M u id keys i snap full found)
    (told_ : ∃ a ∈ told, a.inode = i) :
    Gives (publish i snap) s fun _ t => Coherent M u w₀ id keys told t ∧ Remembers s t ∧
      t.attrs.lookup i = some snap := by
  apply (publish_first i snap s).mono
  rintro _ t ⟨remembers, here, elsewhere, allocator, store⟩
  have inner : i ≠ rootInode := key.inode ▸ inodeOf_ne_root _ _ _ _
  have cached : t.attrs.lookup i = some snap := by
    rw [here]
    cases there : s.attrs.lookup i with
    | none => rfl
    | some old =>
      obtain ⟨p, f, before⟩ := coherent.keyed i old inner there
      rw [Option.getD_some, before.snapshot_unique distinct key]
  refine ⟨⟨?_, remembers _ _ coherent.root, ?_, ?_, store ▸ coherent.store⟩, remembers, cached⟩
  · rw [allocator]
    exact coherent.projectionId
  · intro k other notRoot there
    by_cases same : k = i
    · subst same
      cases cached.symm.trans there
      exact ⟨full, found, key⟩
    · exact coherent.keyed k other notRoot (elsewhere k same ▸ there)
  · intro k other notRoot there
    by_cases same : k = i
    · exact same ▸ told_
    · exact coherent.told k other notRoot (elsewhere k same ▸ there)

def Recorded (M : Mount ω) (s : FsState ω) (a : Attr) : Prop :=
  a.inode ≠ rootInode ∧ ∃ snap, s.attrs.lookup a.inode = some snap ∧ a = attrOf M a.inode snap

theorem recorded_of_cached {i : UInt64} {snap : AttrSnapshot} (inner : i ≠ rootInode)
    (cached : s.attrs.lookup i = some snap) : Recorded M s (attrOf M i snap) := by
  unfold Recorded
  rw [attrOf_inode]
  exact ⟨inner, snap, cached, rfl⟩

theorem Recorded.remembered {a : Attr} (recorded : Recorded M s a) (remembers : Remembers s t) :
    Recorded M t a := by
  obtain ⟨inner, snap, cached, same⟩ := recorded
  exact ⟨inner, snap, remembers _ _ cached, same⟩

theorem lookup_sound (pinned : Pinned M u w₀ c) (distinct : DistinctKeys M.hasher id keys)
    (coherent : Coherent M u w₀ id keys told s) {parent : UInt64} {name : Bytes}
    (used : ∀ key, keyOf M s (.lookup parent name) = some key → key ∈ keys) :
    Gives (M.lookup parent name).run s fun r t => (∀ a, r = .ok a → a ∈ told) →
      Coherent M u w₀ id keys told t ∧ Remembers s t ∧ ∀ a, r = .ok a → Recorded M t a := by
  unfold Mount.lookup
  rw [gives_run_bind]
  apply ((parentPath_state parent s).and (gives_self _ s)).mono
  rintro (e | path) t ⟨rfl, walked, -⟩
  · exact fun _ => ⟨coherent, fun _ _ cached => cached, nofun⟩
  rw [sequel_ok, gives_run_bind, gives_onStoreOr]
  apply ((resolve_sound pinned coherent.store (joinPath path name)).and
    (gives_self _ t.store)).mono
  rintro (e | found) store ⟨⟨partly, leads⟩, resolved, -⟩
  · exact fun _ => ⟨coherent.of_attrs rfl rfl partly, fun _ _ cached => cached, nofun⟩
  have key : (joinPath path name, found) ∈ keys := by
    apply used
    simp only [keyOf, ← walked, ← resolved]
  simp only [Except.mapError, sequel_ok, gives_run_bind]
  have coherentS : Coherent M u w₀ id keys told { t with store := store } :=
    coherent.of_attrs rfl rfl partly
  apply (snapshotFor_sound pinned partly coherentS.projectionId (joinPath path name) found).mono
  rintro (e | answer) v ⟨quiet, value⟩
  · exact fun _ => ⟨coherentS.quiet quiet, fun _ _ cached => by rw [quiet.attrs]; exact cached, nofun⟩
  cases value answer rfl
  simp only [sequel_ok, gives_run_bind, gives_run_lift]
  have keyed : Keyed M u id keys (inodeOf M.hasher id (joinPath path name) found)
      (snapshotOf u (joinPath path name) found) (joinPath path name) found :=
    ⟨key, leads found rfl, rfl, rfl⟩
  by_cases known : attrOf M (inodeOf M.hasher id (joinPath path name) found)
      (snapshotOf u (joinPath path name) found) ∈ told
  · apply (publish_coherent distinct (coherentS.quiet quiet) keyed
      ⟨_, known, attrOf_inode _ _ _⟩).mono
    rintro _ final ⟨coherentF, remembers, cached⟩ -
    refine ⟨coherentF, fun k old before => remembers k old ?_, ?_⟩
    · rw [quiet.attrs]
      exact before
    · rintro a ⟨⟩
      exact recorded_of_cached (inodeOf_ne_root _ _ _ _) cached
  · exact (publish_first _ _ v).mono fun _ _ _ told_ => absurd (told_ _ rfl) known

theorem Coherent.lists (coherent : Coherent M u w₀ id keys told s) {harvested : List ObjectId}
    (lists : Lists (Partly M.gix u w₀) harvested s t) : Coherent M u w₀ id keys told t :=
  coherent.of_attrs lists.attrs lists.projectionId lists.store

theorem listChildren_quiet {ok : Store ω → Prop} (okS : ok s.store) (path : Bytes)
    (pairs : List (Bytes × ResolvedEntry)) :
    Gives (M.listChildren path pairs) s fun _ t => Quiet ok s t := by
  induction pairs generalizing s with
  | nil => exact ⟨rfl, rfl, rfl, okS⟩
  | cons named rest ih =>
    obtain ⟨name, found⟩ := named
    unfold Mount.listChildren
    rw [gives_bind]
    have entry : Gives (M.dirEntryFor found (joinPath path name)) s fun _ t => Quiet ok s t := by
      cases found with
      | tree e => exact ⟨rfl, rfl, remember_id _ _ _, okS⟩
      | synthetic label e => exact ⟨rfl, rfl, remember_id _ _ _, okS⟩
    apply entry.mono
    intro line t quiet
    simp only [gives_bind]
    exact (ih quiet.store).mono fun more final later => quiet.trans later

def Served (M : Mount ω) (u : Universe ω) (w : ω) : AttrSnapshot → Prop
  | .treeFile oid _ _ | .treeSymlink oid _ =>
    Obtainable u M.fetcher w oid ∧ (blobOf oid (u.object oid)).toBool = true
  | .treeDir oid _ =>
    Obtainable u M.fetcher w oid ∧ (treeOf M.gix oid (u.object oid)).toBool = true
  | _ => True

variable {i : UInt64} {snap : AttrSnapshot}

theorem mapError_toBool {ε ε' α : Type} (f : ε → ε') (r : Except ε α) :
    (r.mapError f).toBool = r.toBool := by
  cases r <;> rfl

theorem read_kind (pinned : Pinned M u w₀ c) (partly : Partly M.gix u w₀ s.store)
    (cached : s.attrs.lookup i = some snap) (offset size : Nat) :
    Gives (M.read i offset size).run s fun r t => Quiet (Partly M.gix u w₀) s t ∧
      (Served M u s.store.world snap → (r.toBool = true ↔ snap.stat.1 = .regularFile)) := by
  have idle : Quiet (Partly M.gix u w₀) s s := ⟨rfl, rfl, rfl, partly⟩
  unfold Mount.read
  simp only [gives_run_bind, gives_cachedSnapshot cached, sequel_ok]
  cases snap with
  | treeFile oid n mode =>
    simp only [gives_run_bind, gives_onStoreOr]
    apply (served_read (blobOf_readOf oid) pinned.honest (readBlob_plain pinned.answers oid)
      partly).mono
    rintro (e | bytes) store ⟨partlyT, succeeds⟩
    · exact ⟨⟨rfl, rfl, rfl, partlyT⟩, fun served => absurd (succeeds served.1 served.2) Bool.false_ne_true⟩
    · exact ⟨⟨rfl, rfl, rfl, partlyT⟩, fun _ => iff_of_true rfl rfl⟩
  | syntheticFile content mode => exact ⟨idle, fun _ => iff_of_true rfl rfl⟩
  | _ => exact ⟨idle, fun _ => iff_of_false Bool.false_ne_true (by simp [AttrSnapshot.stat])⟩

theorem readlink_kind (pinned : Pinned M u w₀ c) (partly : Partly M.gix u w₀ s.store)
    (cached : s.attrs.lookup i = some snap) :
    Gives (M.readlink i).run s fun r t => Quiet (Partly M.gix u w₀) s t ∧
      (Served M u s.store.world snap → (r.toBool = true ↔ snap.stat.1 = .symlink)) := by
  have idle : Quiet (Partly M.gix u w₀) s s := ⟨rfl, rfl, rfl, partly⟩
  unfold Mount.readlink
  simp only [gives_run_bind, gives_cachedSnapshot cached, sequel_ok]
  cases snap with
  | treeSymlink oid n =>
    simp only [gives_onStoreOr]
    apply (served_read (blobOf_readOf oid) pinned.honest (readBlob_plain pinned.answers oid)
      partly).mono
    rintro r store ⟨partlyT, succeeds⟩
    refine ⟨⟨rfl, rfl, rfl, partlyT⟩, fun served => iff_of_true ?_ rfl⟩
    rw [mapError_toBool]
    exact succeeds served.1 served.2
  | syntheticSymlink target => exact ⟨idle, fun _ => iff_of_true rfl rfl⟩
  | _ => exact ⟨idle, fun _ => iff_of_false Bool.false_ne_true (by simp [AttrSnapshot.stat])⟩

theorem readdir_kind (pinned : Pinned M u w₀ c) (coherent : Coherent M u w₀ id keys told s)
    (inner : i ≠ rootInode) (cached : s.attrs.lookup i = some snap) :
    Gives (M.readdir i 0).run s fun r t => Coherent M u w₀ id keys told t ∧ t.attrs = s.attrs ∧
      (Served M u s.store.world snap → (r.toBool = true ↔ snap.stat.1 = .directory)) := by
  unfold Mount.readdir
  simp only [Nat.lt_irrefl, if_false, inner, gives_run_bind, gives_cachedSnapshot cached,
    sequel_ok]
  cases snap with
  | treeDir tree path =>
    simp only [gives_run_bind, gives_onStoreOr]
    apply (served_read (treeOf_readOf M.gix tree) pinned.honest (readTree_plain pinned.answers tree)
      coherent.store).mono
    rintro (e | raw) store ⟨partlyT, succeeds⟩
    · exact ⟨coherent.of_attrs rfl rfl partlyT, rfl,
        fun served => absurd (succeeds served.1 served.2) Bool.false_ne_true⟩
    · simp only [Except.mapError, sequel_ok, gives_run_bind, gives_run_lift]
      refine (listChildren_quiet (s := { s with store := store }) partlyT path _).mono ?_
      intro out v quiet
      apply (postPrefetch_gives _ quiet).mono
      intro _ final lists
      have coherentS : Coherent M u w₀ id keys told { s with store := store } :=
        coherent.of_attrs rfl rfl partlyT
      exact ⟨coherentS.lists lists, lists.attrs, fun _ => iff_of_true rfl rfl⟩
  | syntheticDir children path =>
    simp only [gives_run_lift]
    refine (listChildren_quiet coherent.store path _).mono ?_
    intro out t quiet
    exact ⟨coherent.quiet quiet, quiet.attrs, fun _ => iff_of_true rfl rfl⟩
  | gitlink => exact ⟨coherent, rfl, fun _ => iff_of_true rfl rfl⟩
  | root => exact ⟨coherent, rfl, fun _ => iff_of_true rfl rfl⟩
  | _ =>
    exact ⟨coherent, rfl, fun _ => iff_of_false Bool.false_ne_true (by simp [AttrSnapshot.stat])⟩

theorem readdir_root (pinned : Pinned M u w₀ c) (coherent : Coherent M u w₀ id keys told s) :
    Gives (M.readdir rootInode 0).run s fun _ t => Coherent M u w₀ id keys told t ∧
      t.attrs = s.attrs := by
  unfold Mount.readdir
  simp only [Nat.lt_irrefl, if_false, if_true, gives_run_bind, gives_onStoreOr]
  refine (readRoot_returns (pinned.simulates s.store.world) M.projection M.overlay s.store
    ⟨coherent.store.1, rfl⟩).mono ?_
  rintro (e | pairs) store ⟨-, truthful, world⟩
  · exact ⟨coherent.of_attrs rfl rfl ⟨truthful, world ▸ coherent.store.2⟩, rfl⟩
  · have partlyT : Partly M.gix u w₀ store := ⟨truthful, world ▸ coherent.store.2⟩
    simp only [Except.mapError, sequel_ok, gives_run_bind, gives_run_lift]
    refine (listChildren_quiet (s := { s with store := store }) partlyT [] pairs).mono ?_
    intro out v quiet
    apply (postPrefetch_gives _ quiet).mono
    intro _ final lists
    have coherentS : Coherent M u w₀ id keys told { s with store := store } :=
      coherent.of_attrs rfl rfl partlyT
    exact ⟨coherentS.lists lists, lists.attrs⟩

theorem work_coherent (pinned : Pinned M u w₀ c) (coherent : Coherent M u w₀ id keys told s) :
    Gives (Worker.work M) s fun _ t => Coherent M u w₀ id keys told t ∧ t.attrs = s.attrs := by
  unfold Worker.work
  rw [gives_bind, gives_get]
  cases queued : s.channel with
  | nil => exact ⟨coherent, rfl⟩
  | cons task rest =>
    simp only [gives_bind, gives_modify, gives_zoom]
    have done : ∀ store, Partly M.gix u w₀ store →
        Coherent M u w₀ id keys told { s with channel := rest, store := store } :=
      fun store partly => coherent.of_attrs rfl rfl partly
    cases task with
    | headers oids =>
      exact (warmHeaders_partly pinned.answers pinned.honest _ s.store coherent.store).mono
        fun _ store partly => ⟨done store partly, trivial⟩
    | blobs oids =>
      exact (warmBlobs_partly pinned.answers pinned.honest _ s.store coherent.store).mono
        fun _ store partly => ⟨done store partly, trivial⟩

end Calls

section Available
variable {M : Mount ω} {G : Gix ω} {u : Universe ω} {w : ω}

/-- What the commits and the trees name is of the kind it should be, and can be had. -/
structure Available (M : Mount ω) (u : Universe ω) (w : ω) : Prop where
  commits : ∀ c tree, commitTreeOf M.gix c (u.object c) = .ok tree →
    EntryBacked M.gix u tree .directory
  entries : Backed M.gix u
  obtainable : ∀ oid, (u.object oid).isSome → Obtainable u M.fetcher w oid

theorem walkSynthetic_ne_tree (current : SyntheticEntry) (walked component : Bytes)
    (rest : List Bytes) (e : TreeEntry) :
    walkSynthetic current walked component rest ≠ .ok (.tree e) := by
  intro found
  induction rest generalizing current walked component with
  | nil =>
    rcases current with _ | children | _
    · cases found
    · unfold walkSynthetic at found
      cases hit : children.lookup component <;> simp only [hit] at found <;> cases found
    · cases found
  | cons next rest ih =>
    rcases current with _ | children | _
    · cases found
    · unfold walkSynthetic at found
      cases hit : children.lookup component with
      | none =>
        simp only [hit] at found
        cases found
      | some child =>
        simp only [hit] at found
        exact ih child _ next found
    · cases found

theorem resolveInSynthetic_ne_tree (head : Bytes) (entry : SyntheticEntry) (rest : Bytes)
    (e : TreeEntry) : resolveInSynthetic head entry rest ≠ .ok (.tree e) := by
  unfold resolveInSynthetic
  by_cases empty : trim rest = []
  · rw [if_pos empty]
    exact nofun
  · simp only [empty, if_false]
    rcases (split (trim rest)).filter (· ≠ []) with _ | ⟨first, more⟩
    · exact nofun
    · exact walkSynthetic_ne_tree _ _ _ _ _

theorem walk_backed (backed : Backed G u) {refs : Bytes → Except String ObjectId}
    {tree : ObjectId} {walked component : Bytes} {rest : List Bytes} {e : TreeEntry}
    (found : TreeNavigator.walk (G.uncached u.object refs) tree walked component rest = pure e) :
    EntryBacked G u e.oid e.mode := by
  induction rest generalizing tree walked component with
  | nil =>
    unfold TreeNavigator.walk at found
    obtain ⟨entries, read, found⟩ := bind_eq_pure found
    cases hit : entries.find? (·.name = component) with
    | none =>
      rw [hit] at found
      cases found
    | some raw =>
      rw [hit] at found
      cases found
      exact backed tree entries (adapt_eq_pure read) raw (List.mem_of_find?_eq_some hit)
  | cons next rest ih =>
    unfold TreeNavigator.walk at found
    obtain ⟨entries, read, found⟩ := bind_eq_pure found
    cases hit : entries.find? (·.name = component) with
    | none =>
      rw [hit] at found
      cases found
    | some raw =>
      rw [hit] at found
      by_cases dir : (TreeEntry.ofRaw raw).mode.isDir = true
      · simp only [dir, if_true] at found
        exact ih found
      · simp only [dir, Bool.false_eq_true, if_false] at found
        cases found

theorem navigator_backed (backed : Backed G u) {refs : Bytes → Except String ObjectId}
    {tree : ObjectId} (here : EntryBacked G u tree .directory) {path : Bytes} {e : TreeEntry}
    (found : TreeNavigator.lookup (G.uncached u.object refs) tree path = pure e) :
    EntryBacked G u e.oid e.mode := by
  unfold TreeNavigator.lookup at found
  obtain ⟨components, -, found⟩ := bind_eq_pure found
  cases components with
  | nil =>
    cases found
    exact here
  | cons first rest => exact walk_backed backed found

theorem rootTree_backed (available : Available M u w) {refs : Bytes → Except String ObjectId}
    {root : ObjectId}
    (rooted : M.projection.rootTree (M.gix.uncached u.object refs) = pure root) :
    EntryBacked M.gix u root .directory := by
  cases projection : M.projection with
  | ref name =>
    rw [projection] at rooted
    obtain ⟨c, -, rooted⟩ := bind_eq_pure rooted
    exact available.commits c root (adapt_eq_pure rooted)
  | commit c =>
    rw [projection] at rooted
    exact available.commits c root (adapt_eq_pure rooted)
  | subtree c path =>
    rw [projection] at rooted
    obtain ⟨tree, read, rooted⟩ := bind_eq_pure rooted
    obtain ⟨e, found, rooted⟩ := bind_eq_pure rooted
    have backed := navigator_backed available.entries
      (available.commits c tree (adapt_eq_pure read)) found
    by_cases dir : e.mode.isDir = true
    · rw [if_pos dir] at rooted
      cases rooted
      rwa [EntryMode.isDir_iff.mp dir] at backed
    · rw [if_neg dir] at rooted
      cases rooted

theorem leadsTo_backed (available : Available M u w) {full : Bytes} {e : TreeEntry}
    (leads : LeadsTo M u full (.tree e)) : EntryBacked M.gix u e.oid e.mode := by
  have found := leads fun _ => .error ""
  unfold Projection.lookup at found
  cases shadow : Projection.shadowing M.overlay full with
  | some entry =>
    rw [shadow] at found
    exact absurd found (resolveInSynthetic_ne_tree _ _ _ _)
  | none =>
    rw [shadow] at found
    obtain ⟨root, rooted, found⟩ := bind_eq_pure found
    obtain ⟨last, found, same⟩ := bind_eq_pure found
    cases same
    exact navigator_backed available.entries (rootTree_backed available rooted) found

theorem leadsTo_served (available : Available M u w) {full : Bytes} {found : ResolvedEntry}
    (leads : LeadsTo M u full found) : Served M u w (snapshotOf u full found) := by
  rcases found with e | ⟨label, content | children | target⟩
  · have backed := leadsTo_backed available leads
    have blob : (∃ bytes, u.object e.oid = some ⟨.blob, bytes⟩) →
        Obtainable u M.fetcher w e.oid ∧ (blobOf e.oid (u.object e.oid)).toBool = true := by
      rintro ⟨bytes, object⟩
      refine ⟨available.obtainable _ (by rw [object]; rfl), ?_⟩
      rw [object]
      rfl
    cases mode : e.mode <;> simp only [snapshotOf, mode] <;> rw [mode] at backed
    · exact blob backed
    · exact blob backed
    · exact blob backed
    · obtain ⟨es, tree⟩ := backed
      obtain ⟨data, object, -⟩ := treeOf_eq_ok tree
      refine ⟨available.obtainable _ (by rw [object]; rfl), ?_⟩
      rw [tree]
      rfl
    · trivial
  all_goals trivial

end Available

def Gaining (u : Universe ω) (s : FsState ω) : FsAction ω → Prop
  | .world w => u.Grows s.store.world w
  | _ => True

section Runs
variable {M : Mount ω} {u : Universe ω} {w₀ : ω} {c : ObjectId} {id : UInt64}
  {keys : List (Bytes × ResolvedEntry)} {told : List Attr} {s t : FsState ω}

theorem remembers_of_attrs (attrs : t.attrs = s.attrs) : Remembers s t := fun i snap cached => by
  rw [attrs]
  exact cached

theorem Coherent.notRoot (coherent : Coherent M u w₀ id keys told s) {i : UInt64}
    (unknown : s.attrs.lookup i = none) : i ≠ rootInode := by
  rintro rfl
  rw [coherent.root] at unknown
  cases unknown

theorem getattr_recorded {a : Attr} (recorded : Recorded M s a) :
    answer M s (.getattr a.inode) = .attr (.ok a) := by
  obtain ⟨inner, snap, cached, same⟩ := recorded
  have given : Gives (M.getattr a.inode).run s fun r _ => r = .ok (attrOf M a.inode snap) := by
    unfold Mount.getattr
    simp only [inner, if_false, gives_run_bind, gives_cachedSnapshot cached, sequel_ok]
    exact rfl
  rw [← same] at given
  exact congrArg Answer.attr given

theorem attrGiven_lookup {parent : UInt64} {name : Bytes} {a : Attr} :
    attrGiven M s (.lookup parent name) = some a ↔
      ((M.lookup parent name).run.run s).1 = .ok a := by
  simp only [attrGiven]
  generalize ((M.lookup parent name).run.run s).1 = r
  cases r with
  | error e => exact iff_of_false nofun nofun
  | ok b => simp only [Except.toOption, Option.some.injEq, Except.ok.injEq]

def Listed (M : Mount ω) (u : Universe ω) (keys : List (Bytes × ResolvedEntry))
    (told : List Attr) (s : FsState ω) (action : FsAction ω) : Prop :=
  Gaining u s action ∧ (∀ key, keyOf M s action = some key → key ∈ keys) ∧
    ∀ a, attrGiven M s action = some a → a ∈ told

theorem step_coherent (pinned : Pinned M u w₀ c) (distinct : DistinctKeys M.hasher id keys)
    (coherent : Coherent M u w₀ id keys told s) {action : FsAction ω}
    (stepped : fsStep M s action = some t) (listed : Listed M u keys told s action) :
    Coherent M u w₀ id keys told t ∧ Remembers s t ∧
      ∀ a, attrGiven M s action = some a → Recorded M t a := by
  obtain ⟨gains, used, answered⟩ := listed
  have still : ∀ t : FsState ω, t = s → Coherent M u w₀ id keys told t ∧ Remembers s t := by
    rintro t rfl
    exact ⟨coherent, remembers_of_attrs rfl⟩
  have quietly : ∀ t : FsState ω, Quiet (Partly M.gix u w₀) s t →
      Coherent M u w₀ id keys told t ∧ Remembers s t := fun t quiet =>
    ⟨coherent.quiet quiet, remembers_of_attrs quiet.attrs⟩
  cases action with
  | lookup parent name =>
    cases stepped
    obtain ⟨coherentT, remembers, recorded⟩ := lookup_sound pinned distinct coherent used
      fun a returned => answered a (attrGiven_lookup.mpr returned)
    exact ⟨coherentT, remembers, fun a given => recorded a (attrGiven_lookup.mp given)⟩
  | getattr inode =>
    cases stepped
    exact and_assoc.mp ⟨still _ (getattr_state M s inode), nofun⟩
  | readdir inode offset =>
    cases stepped
    refine and_assoc.mp ⟨?_, nofun⟩
    rcases Nat.eq_zero_or_pos offset with rfl | later
    · cases there : s.attrs.lookup inode with
      | none => exact still _ (readdir_unknown (coherent.notRoot there) there).2
      | some snap =>
        by_cases root : inode = rootInode
        · subst root
          obtain ⟨coherentT, attrs⟩ := readdir_root pinned coherent
          exact ⟨coherentT, remembers_of_attrs attrs⟩
        · obtain ⟨coherentT, attrs, -⟩ := readdir_kind pinned coherent root there
          exact ⟨coherentT, remembers_of_attrs attrs⟩
    · exact still _ (readdir_later M s inode later).2
  | read inode offset size =>
    cases stepped
    refine and_assoc.mp ⟨?_, nofun⟩
    cases there : s.attrs.lookup inode with
    | none => exact still _ (read_unknown there offset size).2
    | some snap => exact quietly _ (read_kind pinned coherent.store there offset size).1
  | readlink inode =>
    cases stepped
    refine and_assoc.mp ⟨?_, nofun⟩
    cases there : s.attrs.lookup inode with
    | none => exact still _ (readlink_unknown there).2
    | some snap => exact quietly _ (readlink_kind pinned coherent.store there).1
  | work =>
    cases stepped
    obtain ⟨coherentT, attrs⟩ := work_coherent pinned coherent
    exact and_assoc.mp ⟨⟨coherentT, remembers_of_attrs attrs⟩, nofun⟩
  | world w =>
    cases stepped
    refine ⟨coherent.of_attrs rfl rfl ⟨truthful_world coherent.store.1 gains, ?_⟩,
      remembers_of_attrs rfl, nofun⟩
    exact fun oid resident => gains oid (coherent.store.2 oid resident)

/-- Along a run the cache stays coherent, and every attribute answered stays recorded. -/
theorem run_coherent {start : FsState ω} {actions : List (FsAction ω)} (pinned : Pinned M u w₀ c)
    (distinct : DistinctKeys M.hasher id (seen (fsStep M) (keyOf M) start actions))
    (run : exec (fsStep M) start actions = some s)
    (gaining : Meets (fsStep M) (Gaining u) start actions)
    (fresh : Coherent M u w₀ id (seen (fsStep M) (keyOf M) start actions)
      (seen (fsStep M) (attrGiven M) start actions) start) :
    Coherent M u w₀ id (seen (fsStep M) (keyOf M) start actions)
        (seen (fsStep M) (attrGiven M) start actions) s ∧
      ∀ a ∈ seen (fsStep M) (attrGiven M) start actions, Recorded M s a := by
  have listed := meets_and gaining (meets_and (meets_seen (keyOf M) start actions)
    (meets_seen (attrGiven M) start actions))
  generalize seen (fsStep M) (keyOf M) start actions = keys at distinct fresh listed ⊢
  generalize answered : seen (fsStep M) (attrGiven M) start actions = told at fresh listed ⊢
  refine ⟨exec_keeps_meeting (fun s action t stepped listed coherent =>
    (step_coherent pinned distinct coherent stepped listed).1) run listed fresh, ?_⟩
  intro a member
  rw [← answered] at member
  obtain ⟨before, action, after, mid, rfl, first, given⟩ := mem_seen.mp member
  obtain ⟨listedBefore, listedMid⟩ := meets_append first listed
  have coherentMid := exec_keeps_meeting (fun s action t stepped listed coherent =>
    (step_coherent pinned distinct coherent stepped listed).1) first listedBefore fresh
  obtain ⟨mid', same, rest⟩ := exec_append_some run
  cases first.symm.trans same
  obtain ⟨next, stepped, tail⟩ := exec_cons rest
  obtain ⟨coherentNext, -, recorded⟩ :=
    step_coherent pinned distinct coherentMid stepped listedMid.1
  have keeps : ∀ s action t, fsStep M s action = some t → Listed M u keys told s action →
      Coherent M u w₀ id keys told s ∧ Recorded M s a →
      Coherent M u w₀ id keys told t ∧ Recorded M t a := by
    rintro s action t stepped listed ⟨coherent, told_⟩
    obtain ⟨coherentT, remembers, -⟩ := step_coherent pinned distinct coherent stepped listed
    exact ⟨coherentT, told_.remembered remembers⟩
  exact (exec_keeps_meeting keeps tail (listedMid.2 next stepped)
    ⟨coherentNext, recorded a given⟩).2

end Runs

theorem start_coherent {spec : MountSpec ω} {u : Universe ω} {store : Store ω} {M : Mount ω}
    {start : FsState ω} (built : (spec.new.run.run store).1 = .ok (M, start))
    (truthful : Truthful M.gix u (fun _ => True) store) (keys : List (Bytes × ResolvedEntry))
    (told : List Attr) :
    Coherent M u store.world spec.projectionId keys told start := by
  obtain ⟨rfl, time, rfl⟩ := new_mount built
  have rooted : (spec.start store).attrs.lookup rootInode = some .root := AList.lookup_insert _
  have absent : ∀ i, i ≠ rootInode → (spec.start store).attrs.lookup i = none := fun i other =>
    (AList.lookup_insert_ne other).trans (AList.lookup_empty i)
  refine ⟨rfl, rooted, fun i snap inner cached => ?_, fun i snap inner cached => ?_,
    truthful, fun _ resident => resident⟩
  · rw [absent i inner] at cached
    cases cached
  · rw [absent i inner] at cached
    cases cached

theorem start_resident {spec : MountSpec ω} {u : Universe ω} {store : Store ω} {M : Mount ω}
    {start : FsState ω} (built : (spec.new.run.run store).1 = .ok (M, start))
    (answers : M.gix.Answers u) {c : ObjectId} (ofCommit : OfCommit c M.projection) :
    u.resident store.world c = true := by
  obtain ⟨-, time, rfl⟩ := new_mount built
  have resolved : resolveAt spec.gix store.world spec.projection = .ok c := by
    change OfCommit c spec.projection at ofCommit
    cases projection : spec.projection with
    | ref name => exact absurd projection (ofCommit.notRef name)
    | commit oid =>
      rw [projection] at ofCommit
      exact congrArg Except.ok ofCommit
    | subtree oid path =>
      rw [projection] at ofCommit
      exact congrArg Except.ok ofCommit
  have given := (new_gives spec store).symm.trans built
  rw [resolved] at given
  change ((commitTimeAt spec.gix store.world c).mapError _).map _ = _ at given
  have object : spec.gix.tryFindObject store.world c = .ok (u.found store.world c) :=
    answers.object _ _
  rw [commitTimeAt, object] at given
  change (((commitTimeOf spec.gix c (u.found store.world c)).mapError _).map _) = _ at given
  rw [resident_iff_found]
  cases found : u.found store.world c with
  | some obj => rfl
  | none =>
    rw [found] at given
    cases given

theorem attributes_coherent {spec : MountSpec ω} {u : Universe ω} {store : Store ω} {M : Mount ω}
    {start s : FsState ω} {actions : List (FsAction ω)}
    (built : (spec.new.run.run store).1 = .ok (M, start))
    (pinned : ∀ name, M.projection ≠ .ref name) (answers : M.gix.Answers u)
    (honest : Honest M.gix u M.fetcher) (truthful : Truthful M.gix u (fun _ => True) store)
    (run : exec (fsStep M) start actions = some s)
    (gaining : Meets (fsStep M) (Gaining u) start actions)
    (distinct : DistinctKeys M.hasher spec.projectionId
      (seen (fsStep M) (keyOf M) start actions)) :
    (∀ a ∈ seen (fsStep M) (attrGiven M) start actions,
      answer M s (.getattr a.inode) = .attr (.ok a) ∧
      (∀ b ∈ seen (fsStep M) (attrGiven M) start actions, b.inode = a.inode → b = a) ∧
      (Available M u s.store.world →
        (∀ offset size, (answer M s (.read a.inode offset size)).succeeds = true ↔
          a.kind = .regularFile) ∧
        ((answer M s (.readlink a.inode)).succeeds = true ↔ a.kind = .symlink) ∧
        ((answer M s (.readdir a.inode 0)).succeeds = true ↔ a.kind = .directory))) ∧
    ∀ i, i ≠ rootInode → (∀ a ∈ seen (fsStep M) (attrGiven M) start actions, a.inode ≠ i) →
      answer M s (.getattr i) = .attr (.error .notFound) ∧
      (∀ offset size, answer M s (.read i offset size) = .bytes (.error .notFound)) ∧
      answer M s (.readlink i) = .bytes (.error .notFound) ∧
      answer M s (.readdir i 0) = .entries (.error .notFound) := by
  obtain ⟨c, ofCommit⟩ : ∃ c, OfCommit c M.projection := by
    cases projection : M.projection with
    | ref name => exact absurd projection (pinned name)
    | commit oid => exact ⟨oid, rfl⟩
    | subtree oid path => exact ⟨oid, rfl⟩
  have setting : Pinned M u store.world c :=
    ⟨answers, honest, ofCommit, start_resident built answers ofCommit⟩
  obtain ⟨coherent, recorded⟩ := run_coherent setting distinct run gaining
    (start_coherent built truthful _ _)
  refine ⟨fun a given => ⟨getattr_recorded (recorded a given), fun b other same => ?_, ?_⟩, ?_⟩
  · have first := getattr_recorded (recorded a given)
    have second := getattr_recorded (recorded b other)
    rw [same, first] at second
    exact (Except.ok.inj (Answer.attr.inj second)).symm
  · intro available
    obtain ⟨inner, snap, cached, same⟩ := recorded a given
    obtain ⟨full, found, key⟩ := coherent.keyed _ snap inner cached
    have served : Served M u s.store.world snap := by
      rw [key.snapshot]
      exact leadsTo_served available key.leads
    have kind : a.kind = snap.stat.1 := by rw [same, attrOf_kind]
    rw [kind]
    exact ⟨fun offset size => (read_kind setting coherent.store cached offset size).2 served,
      (readlink_kind setting coherent.store cached).2 served,
      (readdir_kind setting coherent inner cached).2.2 served⟩
  · intro i inner untold
    have unknown : s.attrs.lookup i = none := by
      cases cached : s.attrs.lookup i with
      | none => rfl
      | some snap =>
        obtain ⟨a, given, same⟩ := coherent.told i snap inner cached
        exact absurd same (untold a given)
    exact ⟨congrArg Answer.attr (getattr_unknown inner unknown).1,
      fun offset size => congrArg Answer.bytes (read_unknown unknown offset size).1,
      congrArg Answer.bytes (readlink_unknown unknown).1,
      congrArg Answer.entries (readdir_unknown inner unknown).1⟩

section Sample
open ProjgitTables

theorem available_tables {t : Tables} (parses : t.Parses) (closed : t.Closed)
    (commits : t.CommitsParse) (roots : ∀ row ∈ t.commits, (t.trees.lookup row.2.1).isSome)
    (projection : Projection) (time : Int) (w : World) :
    Available ((t.mountSpec projection t.remote).mount time) t.objects w where
  commits c tree commit := by
    obtain ⟨seconds, row⟩ := Tables.commitTreeOf_inv commits commit
    obtain ⟨es, hit⟩ := Option.isSome_iff_exists.mp (roots _ row)
    exact ⟨es, Tables.treeOf_hit parses hit⟩
  entries := Tables.backed_of_closed parses closed
  obtainable oid known := Or.inr (t.remote_supplies oid known)

/-- The blob of `a` is on the remote; `d/l` is looked up both ways. -/
def coherenceRun : List (FsAction World) :=
  [.lookup rootInode (ascii "a"), .lookup rootInode (ascii "d"), .readdir rootInode 0, .work,
    .lookup (hashTree sipHash 7 (fixtureId 3) (ascii "d")) (ascii "l"),
    .lookup rootInode (ascii "d/l")]

theorem sample_coherent :
    (seen (fsStep cloneMount) (attrGiven cloneMount) (cloneStart (fixtureId 4)) coherenceRun).map
        (fun a => (a.kind, a.size)) =
      [(.regularFile, 3), (.directory, 0), (.symlink, 4), (.symlink, 4)] ∧
    ∃ s, exec (fsStep cloneMount) (cloneStart (fixtureId 4)) coherenceRun = some s ∧
      ∀ a ∈ seen (fsStep cloneMount) (attrGiven cloneMount) (cloneStart (fixtureId 4)) coherenceRun,
        answer cloneMount s (.getattr a.inode) = .attr (.ok a) ∧
        ((answer cloneMount s (.readlink a.inode)).succeeds = true ↔ a.kind = .symlink) := by
  have other : fixtureId 4 ≠ fixtureId 1 := by decide
  obtain ⟨s, run⟩ : ∃ s, exec (fsStep cloneMount) (cloneStart (fixtureId 4)) coherenceRun = some s :=
    ⟨_, rfl⟩
  have distinct : DistinctKeys cloneMount.hasher cloneSpec.projectionId
      (seen (fsStep cloneMount) (keyOf cloneMount) (cloneStart (fixtureId 4)) coherenceRun) :=
    distinctKeys_of_apart (by decide +kernel)
  have available : Available cloneMount sampleTables.objects s.store.world :=
    available_tables (by decide +kernel) (by decide +kernel) (by decide +kernel)
      (by decide +kernel) _ 5 _
  have coherent := (attributes_coherent (clone_built other) nofun sampleTables.answers
    sampleTables.remote_honest (truthful_new _ _ _ _ _ _ _ _) run
    ⟨trivial, fun _ _ => ⟨trivial, fun _ _ => ⟨trivial, fun _ _ => ⟨trivial, fun _ _ =>
      ⟨trivial, fun _ _ => ⟨trivial, fun _ _ => trivial⟩⟩⟩⟩⟩⟩ distinct).1
  refine ⟨by decide +kernel, s, run, fun a given => ?_⟩
  obtain ⟨same, -, served⟩ := coherent a given
  exact ⟨same, (served available).2.1⟩

end Sample
end ProjgitServing
