import Projgit.MergedTree
import Projgit.ProjectionFs

/-!
How the provider's cache relates to the merged tree: every published snapshot is the
snapshot of some node, under the inode of that node's path. The calls are described here
for any store that answers truthfully; `ok` is what is known of the store meanwhile.
-/
namespace ProjgitServing
open Utf8Bytes SlashPath ProjgitStore ProjgitProjection ProjgitFs ProjgitMerged Stateful

/-- The path leads to the node. Served paths have passed through a Rust string. -/
structure Reached (T : Merged) (path : List Bytes) (node : Node) : Prop where
  proper : ∀ c ∈ path, ProperName c
  valid : ∀ c ∈ path, Valid c
  descends : T.descend .root path = .ok node

def inodeAt (hasher : Bytes → UInt64) (id : UInt64) (path : List Bytes) : Node → UInt64
  | .root => rootInode
  | .entry (.tree e) => hashTree hasher id e.oid (join path)
  | .entry (.synthetic _ _) => syntheticInode hasher id (join path)

def snapshotAt (T : Merged) (path : List Bytes) : Node → AttrSnapshot
  | .root => .root
  | .entry (.tree e) =>
    match e.mode with
    | .regularFile => .treeFile e.oid (T.blobs e.oid).length 0o644
    | .executableFile => .treeFile e.oid (T.blobs e.oid).length 0o755
    | .directory => .treeDir e.oid (join path)
    | .symlink => .treeSymlink e.oid (T.blobs e.oid).length
    | .gitlink => .gitlink
  | .entry (.synthetic _ (.file content modeRaw)) =>
    .syntheticFile content (if modeRaw = 0o100755 then 0o755 else 0o644)
  | .entry (.synthetic _ (.directory children)) => .syntheticDir children (join path)
  | .entry (.synthetic _ (.symlink target)) => .syntheticSymlink target

/-- `hash_tree` and `hash_synthetic` are injective on the keys: path texts, each with what
    is found there. -/
structure DistinctKeys (hasher : Bytes → UInt64) (id : UInt64)
    (keys : List (Bytes × ResolvedEntry)) : Prop where
  tree : ∀ p q e f, (p, .tree e) ∈ keys → (q, .tree f) ∈ keys →
    hashTree hasher id e.oid p = hashTree hasher id f.oid q → e.oid = f.oid ∧ p = q
  synthetic : ∀ p q a b e f, (p, .synthetic a e) ∈ keys → (q, .synthetic b f) ∈ keys →
    hashSynthetic hasher id p = hashSynthetic hasher id q → p = q

theorem DistinctKeys.mono {hasher : Bytes → UInt64} {id : UInt64}
    {keys fewer : List (Bytes × ResolvedEntry)} (distinct : DistinctKeys hasher id keys)
    (among : ∀ key ∈ fewer, key ∈ keys) : DistinctKeys hasher id fewer where
  tree p q e f first second := distinct.tree p q e f (among _ first) (among _ second)
  synthetic p q a b e f first second :=
    distinct.synthetic p q a b e f (among _ first) (among _ second)

/-- The root has no key. -/
def KeyIn (keys : List (Bytes × ResolvedEntry)) (path : List Bytes) : Node → Prop
  | .root => True
  | .entry found => (join path, found) ∈ keys

variable {ω : Type} {M : Mount ω} {T : Merged} {id : UInt64} {s t : FsState ω}
  {keys : List (Bytes × ResolvedEntry)}

/-- The inode is cached, as that of the node at the path. -/
structure Held (M : Mount ω) (T : Merged) (id : UInt64) (s : FsState ω) (i : UInt64)
    (path : List Bytes) (node : Node) : Prop where
  reached : Reached T path node
  inode : i = inodeAt M.hasher id path node
  cached : s.attrs.lookup i = some (snapshotAt T path node)

structure Serves (M : Mount ω) (T : Merged) (id : UInt64) (keys : List (Bytes × ResolvedEntry))
    (s : FsState ω) : Prop where
  projectionId : s.allocator.projectionId = id
  root : s.attrs.lookup rootInode = some .root
  cached : ∀ i snap, s.attrs.lookup i = some snap →
    ∃ path node, Held M T id s i path node ∧ KeyIn keys path node

def Remembers (s t : FsState ω) : Prop :=
  ∀ i snap, s.attrs.lookup i = some snap → t.attrs.lookup i = some snap

theorem reached_root (T : Merged) : Reached T [] .root := ⟨by simp, by simp, rfl⟩

theorem held_root (serves : Serves M T id keys s) : Held M T id s rootInode [] .root :=
  ⟨reached_root T, rfl, serves.root⟩

theorem Held.remembered {i : UInt64} {path : List Bytes} {node : Node}
    (held : Held M T id s i path node) (remembers : Remembers s t) : Held M T id t i path node :=
  { held with cached := remembers _ _ held.cached }

theorem descend_entry {found : ResolvedEntry} {path : List Bytes} {node : Node}
    (ok : T.descend (.entry found) path = .ok node) : ∃ last, node = .entry last := by
  induction path generalizing found with
  | nil =>
    cases ok
    exact ⟨found, rfl⟩
  | cons name rest ih =>
    obtain ⟨next, -, below⟩ := descend_cons_ok ok
    exact ih below

theorem reached_root_path {path : List Bytes} (reached : Reached T path .root) : path = [] := by
  cases path with
  | nil => rfl
  | cons name rest =>
    obtain ⟨found, -, below⟩ := descend_cons_ok reached.descends
    obtain ⟨last, impossible⟩ := descend_entry below
    cases impossible

theorem reached_unique {p q : List Bytes} {n n' : Node} (first : Reached T p n)
    (second : Reached T q n') (same : join p = join q) : p = q ∧ n = n' := by
  obtain rfl := join_injective (fun c among => (first.proper c among).toComponent)
    (fun c among => (second.proper c among).toComponent) same
  exact ⟨rfl, Except.ok.inj (first.descends.symm.trans second.descends)⟩

theorem inode_injective (distinct : DistinctKeys M.hasher id keys) {p q : List Bytes} {n n' : Node}
    (first : Reached T p n) (second : Reached T q n') (usedP : KeyIn keys p n)
    (usedQ : KeyIn keys q n')
    (same : inodeAt M.hasher id p n = inodeAt M.hasher id q n') : p = q ∧ n = n' := by
  have settled : join p = join q → p = q ∧ n = n' := reached_unique first second
  rcases n with _ | ⟨e | ⟨a, e⟩⟩ <;> rcases n' with _ | ⟨f | ⟨b, f⟩⟩
  · exact ⟨(reached_root_path first).trans (reached_root_path second).symm, rfl⟩
  · exact absurd same.symm (hashTree_ne_root _ _ _ _)
  · exact absurd same.symm (syntheticInode_ne_root _ _ _)
  · exact absurd same (hashTree_ne_root _ _ _ _)
  · exact settled (distinct.tree _ _ e f usedP usedQ same).2
  · exact absurd same.symm (syntheticInode_ne_hashTree _ _ _ _ _)
  · exact absurd same (syntheticInode_ne_root _ _ _)
  · exact absurd same (syntheticInode_ne_hashTree _ _ _ _ _)
  · have hashed : hashSynthetic M.hasher id (join p) = hashSynthetic M.hasher id (join q) :=
      syntheticInode_injective same
    exact settled (distinct.synthetic _ _ a b e f usedP usedQ hashed)

theorem root_of_inode {path : List Bytes} {node : Node} (reached : Reached T path node)
    (root : inodeAt M.hasher id path node = rootInode) : path = [] ∧ node = .root := by
  rcases node with _ | ⟨e | ⟨label, e⟩⟩
  · exact ⟨reached_root_path reached, rfl⟩
  · exact absurd root (hashTree_ne_root _ _ _ _)
  · exact absurd root (syntheticInode_ne_root _ _ _)

/-- The snapshot of a directory tells its path, so one inode is one directory whatever the
    hash does. -/
theorem Held.walkable_unique {i : UInt64} {p q : List Bytes} {n n' : Node}
    (first : Held M T id s i p n) (second : Held M T id s i q n') (walkable : n'.walkable = true) :
    p = q ∧ n = n' := by
  have same : snapshotAt T p n = snapshotAt T q n' :=
    Option.some.inj (first.cached.symm.trans second.cached)
  rcases n' with _ | ⟨f | ⟨b, content | children | target⟩⟩
  · rcases n with _ | ⟨e | ⟨a, content | children | target⟩⟩
    · exact ⟨(reached_root_path first.reached).trans (reached_root_path second.reached).symm, rfl⟩
    · cases mode : e.mode <;> simp [snapshotAt, mode] at same
    all_goals simp [snapshotAt] at same
  · have dir : f.mode = .directory := EntryMode.isDir_iff.mp walkable
    rcases n with _ | ⟨e | ⟨a, content | children | target⟩⟩
    · simp [snapshotAt, dir] at same
    · cases mode : e.mode <;> simp [snapshotAt, mode, dir] at same
      exact reached_unique first.reached second.reached same.2
    all_goals simp [snapshotAt, dir] at same
  · cases walkable
  · rcases n with _ | ⟨e | ⟨a, content | inner | target⟩⟩
    · simp [snapshotAt] at same
    · cases mode : e.mode <;> simp [snapshotAt, mode] at same
    · simp [snapshotAt] at same
    · simp only [snapshotAt, AttrSnapshot.syntheticDir.injEq] at same
      exact reached_unique first.reached second.reached same.2
    · simp [snapshotAt] at same
  · cases walkable

section Calls

@[simp] theorem gives_onStoreOr {ε α : Type} (translate : ε → FsError)
    (x : ExceptT ε (StateM (Store ω)) α) (s : FsState ω)
    (post : Except FsError α → FsState ω → Prop) :
    Gives (onStoreOr translate x).run s post ↔ Gives x.run s.store fun r store =>
      post (r.mapError translate) { s with store := store } := Iff.rfl

@[simp] theorem gives_allocate {α : Type} (f : InodeAllocator → α × InodeAllocator)
    (s : FsState ω) (post : α → FsState ω → Prop) :
    Gives (allocate f) s post ↔
      post (f s.allocator).1 { s with allocator := (f s.allocator).2 } := Iff.rfl

theorem gives_cachedSnapshot {i : UInt64} {snap : AttrSnapshot}
    (cached : s.attrs.lookup i = some snap) (post : Except FsError AttrSnapshot → FsState ω → Prop) :
    Gives (cachedSnapshot i : FsM ω AttrSnapshot).run s post ↔ post (.ok snap) s := by
  unfold cachedSnapshot
  rw [gives_run_bind]
  change Sequel _ post (.ok s) s ↔ _
  rw [sequel_ok, cached]
  rfl

theorem parentPath_gives {i : UInt64} {path : List Bytes} {node : Node}
    (held : Held M T id s i path node) :
    Gives (parentPath i : FsM ω Bytes).run s fun r t => t = s ∧
      (node.walkable = true ∧ r = .ok (join path) ∨
        node.walkable = false ∧ ∃ e, r = .error e ∧ ∀ name, T.child node name = .error e) := by
  obtain ⟨reached, inode, cached⟩ := held
  unfold parentPath
  by_cases root : i = rootInode
  · obtain ⟨rfl, rfl⟩ := root_of_inode reached (inode.symm.trans root)
    simp only [root, if_true]
    exact ⟨rfl, Or.inl ⟨rfl, rfl⟩⟩
  · simp only [root, if_false]
    rw [gives_run_bind]
    change Sequel _ _ (.ok s) s
    rw [sequel_ok, cached]
    rcases node with _ | ⟨e | ⟨label, content | children | target⟩⟩
    · exact absurd inode root
    · cases mode : e.mode <;> simp only [snapshotAt, mode]
      · exact ⟨rfl, Or.inr ⟨by simp [Node.walkable, mode, EntryMode.isDir], _, rfl,
          fun name => by simp [Merged.child, Merged.children, mode]⟩⟩
      · exact ⟨rfl, Or.inr ⟨by simp [Node.walkable, mode, EntryMode.isDir], _, rfl,
          fun name => by simp [Merged.child, Merged.children, mode]⟩⟩
      · exact ⟨rfl, Or.inr ⟨by simp [Node.walkable, mode, EntryMode.isDir], _, rfl,
          fun name => by simp [Merged.child, Merged.children, mode]⟩⟩
      · exact ⟨rfl, Or.inl ⟨by simp [Node.walkable, mode, EntryMode.isDir], rfl⟩⟩
      · exact ⟨rfl, Or.inr ⟨by simp [Node.walkable, mode, EntryMode.isDir], _, rfl,
          fun name => by simp [Merged.child, Merged.children, mode]⟩⟩
    · exact ⟨rfl, Or.inr ⟨rfl, _, rfl, fun name => rfl⟩⟩
    · exact ⟨rfl, Or.inl ⟨rfl, rfl⟩⟩
    · exact ⟨rfl, Or.inr ⟨rfl, _, rfl, fun name => rfl⟩⟩

def Sized (M : Mount ω) (T : Merged) (ok : Store ω → Prop) (oid : ObjectId) : Prop :=
  ∀ store, ok store → Gives (M.hydrating.header oid).run store fun r store' =>
    (∃ kind, r = .ok (kind, (T.blobs oid).length)) ∧ ok store'

def needsHeader (e : TreeEntry) : Prop :=
  e.mode = .regularFile ∨ e.mode = .executableFile ∨ e.mode = .symlink

/-- A call has touched nothing but the allocator's memo and the store. -/
structure Quiet (ok : Store ω → Prop) (s t : FsState ω) : Prop where
  attrs : t.attrs = s.attrs
  channel : t.channel = s.channel
  projectionId : t.allocator.projectionId = s.allocator.projectionId
  store : ok t.store

variable {ok : Store ω → Prop}

theorem snapshotFor_gives (projectionId : s.allocator.projectionId = id) (okS : ok s.store)
    (path : List Bytes) {found : ResolvedEntry}
    (sized : ∀ e, found = .tree e → needsHeader e → Sized M T ok e.oid) :
    Gives (M.snapshotFor found (join path)).run s fun r t => Quiet ok s t ∧
      r = .ok (inodeAt M.hasher id path (.entry found), snapshotAt T path (.entry found),
        T.stat (.entry found)) := by
  subst projectionId
  cases found with
  | tree e =>
    unfold Mount.snapshotFor Mount.snapshotForTree
    rw [gives_run_bind, gives_run_lift, gives_allocate]
    simp only [sequel_ok]
    have quiet : ∀ store, ok store → Quiet ok s
        { s with allocator := (s.allocator.forTreeEntry M.hasher e.oid (join path)).2, store } :=
      fun store okStore => ⟨rfl, rfl, remember_id _ _ _, okStore⟩
    cases mode : e.mode with
    | directory => exact ⟨quiet _ okS, by simp [snapshotAt, Merged.stat, mode]; rfl⟩
    | gitlink => exact ⟨quiet _ okS, by simp [snapshotAt, Merged.stat, mode]; rfl⟩
    | regularFile =>
      simp only [gives_run_bind, gives_onStoreOr]
      apply (sized e rfl (Or.inl mode) s.store okS).mono
      intro r store given
      obtain ⟨⟨kind, rfl⟩, okStore⟩ := given
      exact ⟨quiet _ okStore, by simp [snapshotAt, Merged.stat, mode]; rfl⟩
    | executableFile =>
      simp only [gives_run_bind, gives_onStoreOr]
      apply (sized e rfl (Or.inr (Or.inl mode)) s.store okS).mono
      intro r store given
      obtain ⟨⟨kind, rfl⟩, okStore⟩ := given
      exact ⟨quiet _ okStore, by simp [snapshotAt, Merged.stat, mode]; rfl⟩
    | symlink =>
      simp only [gives_run_bind, gives_onStoreOr]
      apply (sized e rfl (Or.inr (Or.inr mode)) s.store okS).mono
      intro r store given
      obtain ⟨⟨kind, rfl⟩, okStore⟩ := given
      exact ⟨quiet _ okStore, by simp [snapshotAt, Merged.stat, mode]; rfl⟩
  | synthetic label e =>
    have quiet : Quiet ok s
        { s with allocator := (s.allocator.forSynthetic M.hasher (join path)).2 } :=
      ⟨rfl, rfl, remember_id _ _ _, okS⟩
    cases e with
    | file content mode => exact ⟨quiet, rfl⟩
    | directory children => exact ⟨quiet, rfl⟩
    | symlink target => exact ⟨quiet, rfl⟩

theorem lossy_proper {name : Bytes} (proper : ProperName name) :
    ProperName (fromUtf8Lossy name) ∧ Valid (fromUtf8Lossy name) := by
  have foreign : ∀ x, x ∉ name → x ≠ 0xEF → x ≠ 0xBF → x ≠ 0xBD → x ∉ fromUtf8Lossy name := by
    intro x absent a b c member
    rcases lossy_mem member with inside | inside
    · exact absent inside
    · simp_all [replacement]
  have undone : ∀ clean, 0xEF ∉ clean → fromUtf8Lossy name = clean → name = clean := by
    rintro clean ascii rfl
    exact (lossy_of_valid (valid_of_lossy_clean ascii)).symm
  refine ⟨⟨⟨?_, ?_⟩, ?_, ?_, ?_⟩, valid_lossy name⟩
  · exact fun empty => proper.nonempty (undone [] (by decide) empty)
  · exact foreign slash proper.noSlash (by decide) (by decide) (by decide)
  · exact foreign 0 proper.noNul (by decide) (by decide) (by decide)
  · exact fun same => proper.notDot (undone dot (by decide) same)
  · exact fun same => proper.notDotdot (undone dotdot (by decide) same)

theorem valid_join {path : List Bytes} (valid : ∀ c ∈ path, Valid c) : Valid (join path) := by
  induction path with
  | nil => exact .nil
  | cons a rest ih =>
    have here := valid a (by simp)
    cases rest with
    | nil => simpa [join_singleton] using here
    | cons b tail =>
      rw [join_cons_cons]
      apply valid_append here
      exact .cons (.one (by decide)) (ih fun c among => valid c (List.mem_cons_of_mem _ among))

theorem joinPath_join {path : List Bytes} {node : Node} (reached : Reached T path node)
    (name : Bytes) : joinPath (join path) name = join (path ++ [fromUtf8Lossy name]) := by
  unfold joinPath
  by_cases empty : path = []
  · subst empty
    simp [join_nil, join_singleton]
  · have some_ := join_ne_nil (fun c among => (reached.proper c among).toComponent) empty
    rw [if_neg some_, lossy_of_valid (valid_join reached.valid), join_snoc empty]

theorem reached_snoc {path : List Bytes} {node : Node} (reached : Reached T path node)
    {name : Bytes} (proper : ProperName name) (valid : Valid name) {found : ResolvedEntry}
    (ok : T.child node name = .ok found) : Reached T (path ++ [name]) (.entry found) where
  proper c among := by
    rcases List.mem_append.mp among with before | here
    · exact reached.proper c before
    · simp only [List.mem_singleton] at here
      exact here ▸ proper
  valid c among := by
    rcases List.mem_append.mp among with before | here
    · exact reached.valid c before
    · simp only [List.mem_singleton] at here
      exact here ▸ valid
  descends := by rw [descend_snoc reached.descends, ok]

/-- Publishing a node's snapshot under its inode keeps the cache faithful. An entry that
    is already there is the same one, for its inode has one owner. -/
theorem publish_gives (distinct : DistinctKeys M.hasher id keys) (serves : Serves M T id keys s)
    {path : List Bytes} {node : Node} (reached : Reached T path node)
    (used : KeyIn keys path node) :
    Gives (publish (inodeAt M.hasher id path node) (snapshotAt T path node)) s fun _ t =>
      Serves M T id keys t ∧ Remembers s t ∧ Held M T id t (inodeAt M.hasher id path node) path node ∧
        t.store = s.store ∧ t.channel = s.channel := by
  unfold publish
  rw [gives_modify]
  cases there : s.attrs.lookup (inodeAt M.hasher id path node) with
  | some snap =>
    obtain ⟨p, n, held, before⟩ := serves.cached _ snap there
    obtain ⟨rfl, rfl⟩ := inode_injective distinct reached held.reached used before held.inode
    exact ⟨serves, fun _ _ found => found, held, rfl, rfl⟩
  | none =>
    have other : ∀ i snap, s.attrs.lookup i = some snap → i ≠ inodeAt M.hasher id path node := by
      rintro i snap found rfl
      rw [there] at found
      cases found
    have remembers : Remembers s { s with
        attrs := s.attrs.insert (inodeAt M.hasher id path node) (snapshotAt T path node) } := by
      intro i snap found
      rw [← found]
      exact AList.lookup_insert_ne (other i snap found)
    have held : Held M T id { s with
        attrs := s.attrs.insert (inodeAt M.hasher id path node) (snapshotAt T path node) }
        (inodeAt M.hasher id path node) path node := ⟨reached, rfl, AList.lookup_insert _⟩
    refine ⟨⟨serves.projectionId, remembers _ _ serves.root, ?_⟩, remembers, held, rfl, rfl⟩
    intro i snap found
    by_cases here : i = inodeAt M.hasher id path node
    · exact ⟨path, node, here ▸ held, used⟩
    · rw [AList.lookup_insert_ne here] at found
      obtain ⟨p, n, before, old⟩ := serves.cached i snap found
      exact ⟨p, n, before.remembered remembers, old⟩

def attrAt (M : Mount ω) (T : Merged) (id : UInt64) (path : List Bytes) (node : Node) : Attr :=
  M.attr (inodeAt M.hasher id path node) (T.stat node).1 (T.stat node).2.1 (T.stat node).2.2

theorem attrAt_spec (M : Mount ω) (T : Merged) (id : UInt64) (path : List Bytes) (node : Node) :
    (attrAt M T id path node).inode = inodeAt M.hasher id path node ∧
      ((attrAt M T id path node).kind, (attrAt M T id path node).size,
        (attrAt M T id path node).mode) = T.stat node ∧
      (attrAt M T id path node).mtime = M.commitTime := by
  rcases node with _ | ⟨e | ⟨label, content | children | target⟩⟩
  · exact ⟨rfl, rfl, rfl⟩
  · cases mode : e.mode <;> simp [attrAt, Mount.attr, Merged.stat, mode, Attr.regularFile,
      Attr.directory, Attr.symlink]
  all_goals exact ⟨rfl, rfl, rfl⟩

/-- Resolving a child's path through the bare store answers as the merged tree does. -/
def Resolves (M : Mount ω) (T : Merged) (ok : Store ω → Prop) (store : Store ω)
    (path : List Bytes) (node : Node) (name : Bytes) : Prop :=
  Gives (M.projection.lookup M.bare M.overlay (join (path ++ [name]))).run store fun r store' =>
    ok store' ∧
      match T.child node name with
      | .ok found => r = .ok found
      | .error _ => ∃ parent, r = .error (.notFound name parent)

structure Advances (M : Mount ω) (T : Merged) (id : UInt64) (keys : List (Bytes × ResolvedEntry))
    (ok : Store ω → Prop) (s t : FsState ω) : Prop where
  serves : Serves M T id keys t
  remembers : Remembers s t
  store : ok t.store
  channel : t.channel = s.channel

theorem Held.of_attrs {i : UInt64} {path : List Bytes} {node : Node}
    (held : Held M T id s i path node) (attrs : t.attrs = s.attrs) : Held M T id t i path node :=
  { held with cached := by rw [attrs]; exact held.cached }

theorem Serves.of_attrs (serves : Serves M T id keys s) (attrs : t.attrs = s.attrs)
    (projectionId : t.allocator.projectionId = s.allocator.projectionId) :
    Serves M T id keys t where
  projectionId := projectionId.trans serves.projectionId
  root := by rw [attrs]; exact serves.root
  cached i snap found := by
    rw [attrs] at found
    obtain ⟨path, node, held, used⟩ := serves.cached i snap found
    exact ⟨path, node, held.of_attrs attrs, used⟩

theorem Serves.quiet (serves : Serves M T id keys s) (quiet : Quiet ok s t) :
    Serves M T id keys t :=
  serves.of_attrs quiet.attrs quiet.projectionId

theorem Quiet.advances (serves : Serves M T id keys s) (quiet : Quiet ok s t) :
    Advances M T id keys ok s t :=
  ⟨serves.quiet quiet, fun i snap found => by rw [quiet.attrs]; exact found, quiet.store,
    quiet.channel⟩

theorem Quiet.trans {a b c : FsState ω} (first : Quiet ok a b) (second : Quiet ok b c) :
    Quiet ok a c :=
  ⟨second.attrs.trans first.attrs, second.channel.trans first.channel,
    second.projectionId.trans first.projectionId, second.store⟩

/-- What a lookup answers does not depend on the hash; what it publishes follows the answer. -/
theorem lookup_answers (projectionId : s.allocator.projectionId = id) (okS : ok s.store)
    {i : UInt64} {path : List Bytes} {node : Node} (held : Held M T id s i path node)
    {name : Bytes}
    (resolves : node.walkable = true → Resolves M T ok s.store path node (fromUtf8Lossy name))
    (sized : ∀ e, T.child node (fromUtf8Lossy name) = .ok (.tree e) → needsHeader e →
      Sized M T ok e.oid) :
    Gives (M.lookup i name).run s fun r t =>
      match T.child node (fromUtf8Lossy name) with
      | .error e => r = .error e ∧ Quiet ok s t
      | .ok found => r = .ok (attrAt M T id (path ++ [fromUtf8Lossy name]) (.entry found)) ∧
        ∃ mid, Quiet ok s mid ∧
          t = ((publish (inodeAt M.hasher id (path ++ [fromUtf8Lossy name]) (.entry found))
            (snapshotAt T (path ++ [fromUtf8Lossy name]) (.entry found))).run mid).2 := by
  unfold Mount.lookup
  rw [gives_run_bind]
  apply (parentPath_gives held).mono
  rintro r t ⟨rfl, ⟨walkable, rfl⟩ | ⟨-, e, rfl, stopped⟩⟩
  · rw [sequel_ok, joinPath_join held.reached, gives_run_bind, gives_onStoreOr]
    apply (resolves walkable).mono
    intro r store given
    obtain ⟨okStore, answer⟩ := given
    have quiet : Quiet ok t { t with store := store } := ⟨rfl, rfl, rfl, okStore⟩
    cases child : T.child node (fromUtf8Lossy name) with
    | error e =>
      rw [child] at answer
      obtain ⟨parent, rfl⟩ := answer
      rw [child_error walkable child]
      exact ⟨rfl, quiet⟩
    | ok found =>
      rw [child] at answer
      subst answer
      simp only [Except.mapError, sequel_ok, gives_run_bind]
      have snapshot := snapshotFor_gives (M := M) (T := T) (s := { t with store := store })
        projectionId okStore (path ++ [fromUtf8Lossy name])
        (fun e (same : found = .tree e) => sized e (by rw [child, same]))
      apply snapshot.mono
      intro r u given
      obtain ⟨quietU, rfl⟩ := given
      simp only [sequel_ok, gives_run_bind, gives_run_lift]
      exact ⟨rfl, u, quiet.trans quietU, rfl⟩
  · rw [sequel_error]
    rw [stopped]
    exact ⟨rfl, rfl, rfl, rfl, okS⟩

theorem lookup_gives (distinct : DistinctKeys M.hasher id keys) (serves : Serves M T id keys s)
    (okS : ok s.store) {i : UInt64} {path : List Bytes} {node : Node}
    (held : Held M T id s i path node) {name : Bytes} (proper : ProperName name)
    (resolves : node.walkable = true → Resolves M T ok s.store path node (fromUtf8Lossy name))
    (sized : ∀ e, T.child node (fromUtf8Lossy name) = .ok (.tree e) → needsHeader e →
      Sized M T ok e.oid)
    (used : ∀ found, T.child node (fromUtf8Lossy name) = .ok found →
      (join (path ++ [fromUtf8Lossy name]), found) ∈ keys) :
    Gives (M.lookup i name).run s fun r t => Advances M T id keys ok s t ∧
      match T.child node (fromUtf8Lossy name) with
      | .error e => r = .error e
      | .ok found => r = .ok (attrAt M T id (path ++ [fromUtf8Lossy name]) (.entry found)) ∧
        Held M T id t (inodeAt M.hasher id (path ++ [fromUtf8Lossy name]) (.entry found))
          (path ++ [fromUtf8Lossy name]) (.entry found) := by
  apply (lookup_answers serves.projectionId okS held resolves sized).mono
  intro r t given
  cases child : T.child node (fromUtf8Lossy name) with
  | error e =>
    rw [child] at given
    exact ⟨given.2.advances serves, given.1⟩
  | ok found =>
    rw [child] at given
    obtain ⟨rfl, mid, quiet, rfl⟩ := given
    have reached := reached_snoc held.reached (lossy_proper proper).1 (lossy_proper proper).2 child
    obtain ⟨servesV, remembers, heldV, storeV, channelV⟩ :=
      publish_gives distinct (serves.quiet quiet) reached (used found child)
    refine ⟨⟨servesV, ?_, storeV.symm ▸ quiet.store, channelV.trans quiet.channel⟩, rfl, heldV⟩
    intro j snap cached
    exact remembers j snap (by rw [quiet.attrs]; exact cached)

theorem getattr_gives {i : UInt64} {path : List Bytes} {node : Node}
    (held : Held M T id s i path node) :
    Gives (M.getattr i).run s fun r t => t = s ∧ r = .ok (attrAt M T id path node) := by
  obtain ⟨reached, inode, cached⟩ := held
  unfold Mount.getattr
  by_cases root : i = rootInode
  · obtain ⟨rfl, rfl⟩ := root_of_inode reached (inode.symm.trans root)
    simp only [root, if_true]
    exact ⟨rfl, rfl⟩
  · simp only [root, if_false, gives_run_bind, gives_cachedSnapshot cached, sequel_ok]
    subst inode
    rcases node with _ | ⟨e | ⟨label, content | children | target⟩⟩
    · exact absurd rfl root
    · cases mode : e.mode <;>
        exact ⟨rfl, by simp [attrAt, snapshotAt, AttrSnapshot.stat, Merged.stat, mode]; rfl⟩
    all_goals exact ⟨rfl, rfl⟩

def listedAt (M : Mount ω) (T : Merged) (id : UInt64) (path : List Bytes)
    (named : Bytes × ResolvedEntry) : DirEntry :=
  ⟨inodeAt M.hasher id (path ++ [fromUtf8Lossy named.1]) (.entry named.2), named.1,
    (T.stat (.entry named.2)).1⟩

theorem dirEntryFor_gives (projectionId : s.allocator.projectionId = id) (okS : ok s.store)
    (path : List Bytes) (found : ResolvedEntry) :
    Gives (M.dirEntryFor found (join path)) s fun r t => Quiet ok s t ∧
      r = (inodeAt M.hasher id path (.entry found), (T.stat (.entry found)).1) := by
  subst projectionId
  cases found with
  | tree e =>
    refine ⟨⟨rfl, rfl, remember_id _ _ _, okS⟩, Prod.ext rfl ?_⟩
    cases mode : e.mode <;> simp [Merged.stat, mode]
    all_goals exact congrArg fileTypeOfMode mode
  | synthetic label e =>
    refine ⟨⟨rfl, rfl, remember_id _ _ _, okS⟩, Prod.ext rfl ?_⟩
    cases e <;> rfl

theorem listChildren_gives (projectionId : s.allocator.projectionId = id) (okS : ok s.store)
    {path : List Bytes} {node : Node} (reached : Reached T path node)
    (pairs : List (Bytes × ResolvedEntry)) :
    Gives (M.listChildren (join path) pairs) s fun out t => Quiet ok s t ∧
      out = pairs.map (listedAt M T id path) := by
  induction pairs generalizing s with
  | nil => exact ⟨⟨rfl, rfl, rfl, okS⟩, rfl⟩
  | cons named rest ih =>
    obtain ⟨name, found⟩ := named
    unfold Mount.listChildren
    rw [gives_bind, joinPath_join reached]
    apply (dirEntryFor_gives (T := T) projectionId okS _ found).mono
    intro r t given
    obtain ⟨quiet, rfl⟩ := given
    simp only [gives_bind]
    apply (ih (quiet.projectionId.trans projectionId) quiet.store).mono
    intro out u given
    obtain ⟨quietU, rfl⟩ := given
    exact ⟨quiet.trans quietU, rfl⟩

def taskOids : PrefetchTask → List ObjectId
  | .headers oids | .blobs oids => oids

theorem post_gives (task : PrefetchTask) (s : FsState ω) :
    Gives (post task) s fun _ t => t.attrs = s.attrs ∧ t.allocator = s.allocator ∧
      t.store = s.store ∧ ∀ other ∈ t.channel, other ∈ s.channel ∨ other = task := by
  unfold post
  rw [gives_modify]
  split
  · exact ⟨rfl, rfl, rfl, fun other among => by simpa using among⟩
  · exact ⟨rfl, rfl, rfl, fun other among => Or.inl among⟩

/-- A listing publishes nothing; it may leave tasks for the worker. -/
structure Lists (ok : Store ω → Prop) (harvested : List ObjectId) (s t : FsState ω) : Prop where
  attrs : t.attrs = s.attrs
  projectionId : t.allocator.projectionId = s.allocator.projectionId
  store : ok t.store
  channel : ∀ task ∈ t.channel, task ∈ s.channel ∨ taskOids task = harvested

theorem postPrefetch_gives (oids : List ObjectId) {s : FsState ω} (quiet : Quiet ok s t) :
    Gives (M.postPrefetch oids) t fun _ final => Lists ok oids s final := by
  have idle : Lists ok oids s t :=
    ⟨quiet.attrs, quiet.projectionId, quiet.store, fun task among => Or.inl (quiet.channel ▸ among)⟩
  unfold Mount.postPrefetch
  by_cases empty : oids.isEmpty = true
  · simp only [empty, if_true]
    exact idle
  · simp only [empty, Bool.false_eq_true, if_false, gives_bind]
    apply (post_gives (.headers oids) t).mono
    intro _ u given
    obtain ⟨attrs, allocator, store, channel⟩ := given
    have once : Lists ok oids s u :=
      { attrs := attrs.trans quiet.attrs
        projectionId := by rw [allocator]; exact quiet.projectionId
        store := by rw [store]; exact quiet.store
        channel := fun task among => (channel task among).imp (fun old => quiet.channel ▸ old)
          fun new => by rw [new]; rfl }
    by_cases blobs : M.blobPrefetch = true
    · simp only [blobs, if_true]
      apply (post_gives (.blobs oids) u).mono
      intro _ v given
      obtain ⟨attrs', allocator', store', channel'⟩ := given
      exact
        { attrs := attrs'.trans once.attrs
          projectionId := by rw [allocator']; exact once.projectionId
          store := by rw [store']; exact once.store
          channel := fun task among => (channel' task among).elim (once.channel task)
            fun new => Or.inr (by rw [new]; rfl) }
    · simp only [blobs, Bool.false_eq_true, if_false]
      exact once

def harvestedFrom (pairs : List (Bytes × ResolvedEntry)) : List ObjectId :=
  pairs.filterMap fun named => harvestPrefetchOid named.2

theorem readdir_gives (serves : Serves M T id keys s) (okS : ok s.store) {i : UInt64}
    {path : List Bytes} {node : Node} (held : Held M T id s i path node)
    (root : node = .root → Gives (M.projection.readRoot M.bare M.overlay).run s.store fun r store =>
      ok store ∧ ∃ listed, T.children .root = some listed ∧ r = .ok listed)
    (tree : ∀ e, node = .entry (.tree e) → e.mode = .directory →
      Gives (M.hydrating.readTree e.oid).run s.store fun r store =>
        ok store ∧ r = .ok (T.trees e.oid)) :
    Gives (M.readdir i 0).run s fun r t =>
      Lists ok (harvestedFrom ((T.children node).getD [])) s t ∧
      match T.children node with
      | none => r = .error .notADirectory
      | some listed => r = .ok (listed.map (listedAt M T id path)) := by
  have idle : ∀ oids, Lists ok oids s s := fun _ => ⟨rfl, rfl, okS, fun _ among => Or.inl among⟩
  obtain ⟨reached, inode, cached⟩ := held
  unfold Mount.readdir
  simp only [Nat.lt_irrefl, if_false]
  by_cases isRoot : i = rootInode
  · obtain ⟨rfl, rfl⟩ := root_of_inode reached (inode.symm.trans isRoot)
    simp only [isRoot, if_true, gives_run_bind, gives_onStoreOr]
    apply (root rfl).mono
    intro r store given
    obtain ⟨okStore, listed, children, rfl⟩ := given
    simp only [Except.mapError, sequel_ok, gives_run_bind, gives_run_lift]
    refine (listChildren_gives (T := T) (s := { s with store := store }) serves.projectionId okStore
      (reached_root T) listed).mono ?_
    intro out u given
    obtain ⟨quiet, rfl⟩ := given
    have since : Quiet ok s u := ⟨quiet.attrs, quiet.channel, quiet.projectionId, quiet.store⟩
    rw [children]
    apply (postPrefetch_gives (M := M) (harvestedFrom listed) since).mono
    exact fun _ v lists => ⟨lists, rfl⟩
  · simp only [isRoot, if_false, gives_run_bind, gives_cachedSnapshot cached, sequel_ok]
    rcases node with _ | ⟨e | ⟨label, content | children | target⟩⟩
    · exact absurd inode isRoot
    · cases mode : e.mode <;> simp only [snapshotAt, mode]
      · exact ⟨idle _, by simp [Merged.children, mode]; rfl⟩
      · exact ⟨idle _, by simp [Merged.children, mode]; rfl⟩
      · exact ⟨idle _, by simp [Merged.children, mode]; rfl⟩
      · simp only [gives_run_bind, gives_onStoreOr]
        apply (tree e rfl mode).mono
        intro r store given
        obtain ⟨okStore, rfl⟩ := given
        simp only [Except.mapError, sequel_ok, gives_run_bind, gives_run_lift]
        refine (listChildren_gives (T := T) (s := { s with store := store }) serves.projectionId
          okStore reached (treePairs (T.trees e.oid))).mono ?_
        intro out u given
        obtain ⟨quiet, rfl⟩ := given
        have since : Quiet ok s u := ⟨quiet.attrs, quiet.channel, quiet.projectionId, quiet.store⟩
        simp only [Merged.children, mode]
        apply (postPrefetch_gives (M := M) (harvestedFrom (treePairs (T.trees e.oid))) since).mono
        exact fun _ v lists => ⟨lists, rfl⟩
      · exact ⟨idle _, by simp [Merged.children, mode]; rfl⟩
    · exact ⟨idle _, rfl⟩
    · simp only [snapshotAt, gives_run_lift]
      refine (listChildren_gives (T := T) serves.projectionId okS reached
        (syntheticPairs children)).mono ?_
      intro out u given
      obtain ⟨quiet, rfl⟩ := given
      refine ⟨⟨quiet.attrs, quiet.projectionId, quiet.store, ?_⟩, rfl⟩
      exact fun task among => Or.inl (quiet.channel ▸ among)
    · exact ⟨idle _, rfl⟩

theorem read_gives (okS : ok s.store) {i : UInt64} {path : List Bytes} {node : Node}
    (held : Held M T id s i path node) (offset size : Nat)
    (blob : ∀ e, node = .entry (.tree e) → e.mode = .regularFile ∨ e.mode = .executableFile →
      Gives (M.hydrating.readBlob e.oid).run s.store fun r store =>
        ok store ∧ r = .ok (T.blobs e.oid)) :
    Gives (M.read i offset size).run s fun r t => Quiet ok s t ∧
      match T.content node with
      | none => r = .error .notAFile
      | some bytes => r = .ok (sliceBlob bytes offset size) := by
  have idle : Quiet ok s s := ⟨rfl, rfl, rfl, okS⟩
  obtain ⟨reached, inode, cached⟩ := held
  unfold Mount.read
  simp only [gives_run_bind, gives_cachedSnapshot cached, sequel_ok]
  rcases node with _ | ⟨e | ⟨label, content | children | target⟩⟩
  · exact ⟨idle, rfl⟩
  · cases mode : e.mode <;> simp only [snapshotAt, mode]
    · simp only [gives_run_bind, gives_onStoreOr]
      apply (blob e rfl (Or.inl mode)).mono
      intro r store given
      obtain ⟨okStore, rfl⟩ := given
      exact ⟨⟨rfl, rfl, rfl, okStore⟩, by simp [Merged.content, mode]; rfl⟩
    · simp only [gives_run_bind, gives_onStoreOr]
      apply (blob e rfl (Or.inr mode)).mono
      intro r store given
      obtain ⟨okStore, rfl⟩ := given
      exact ⟨⟨rfl, rfl, rfl, okStore⟩, by simp [Merged.content, mode]; rfl⟩
    all_goals exact ⟨idle, by simp [Merged.content, mode]; rfl⟩
  all_goals exact ⟨idle, rfl⟩

theorem readlink_gives (okS : ok s.store) {i : UInt64} {path : List Bytes} {node : Node}
    (held : Held M T id s i path node)
    (blob : ∀ e, node = .entry (.tree e) → e.mode = .symlink →
      Gives (M.hydrating.readBlob e.oid).run s.store fun r store =>
        ok store ∧ r = .ok (T.blobs e.oid)) :
    Gives (M.readlink i).run s fun r t => Quiet ok s t ∧
      match T.target node with
      | none => r = .error .notASymlink
      | some bytes => r = .ok bytes := by
  have idle : Quiet ok s s := ⟨rfl, rfl, rfl, okS⟩
  obtain ⟨reached, inode, cached⟩ := held
  unfold Mount.readlink
  simp only [gives_run_bind, gives_cachedSnapshot cached, sequel_ok]
  rcases node with _ | ⟨e | ⟨label, content | children | target⟩⟩
  · exact ⟨idle, rfl⟩
  · cases mode : e.mode <;> simp only [snapshotAt, mode]
    case symlink =>
      simp only [gives_onStoreOr]
      apply (blob e rfl mode).mono
      intro r store given
      obtain ⟨okStore, rfl⟩ := given
      exact ⟨⟨rfl, rfl, rfl, okStore⟩, by simp [Merged.target, mode]; rfl⟩
    all_goals exact ⟨idle, by simp [Merged.target, mode]; rfl⟩
  all_goals exact ⟨idle, rfl⟩

end Calls
end ProjgitServing
