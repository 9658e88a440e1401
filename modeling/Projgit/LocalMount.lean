import Projgit.Hydration
import Projgit.Serving

/-!
A mount whose objects are all local. The store never misses, so neither the calls nor
the prefetch worker reach the fetcher, and the provider's cache stays faithful to the
merged tree along every run of calls and worker rounds.
-/
namespace ProjgitServing
open Utf8Bytes SlashPath ProjgitStore ProjgitProjection ProjgitFs ProjgitMerged Stateful LabelledRuns
variable {ω : Type}

/-- A call on the provider, a round of its worker, or a change outside the process. -/
inductive FsAction (ω : Type) where
  | lookup : UInt64 → Bytes → FsAction ω
  | getattr : UInt64 → FsAction ω
  | readdir : UInt64 → Nat → FsAction ω
  | read : UInt64 → Nat → Nat → FsAction ω
  | readlink : UInt64 → FsAction ω
  | work
  | world : ω → FsAction ω

def fsStep (M : Mount ω) (s : FsState ω) : FsAction ω → Option (FsState ω)
  | .lookup parent name => some ((M.lookup parent name).run.run s).2
  | .getattr inode => some ((M.getattr inode).run.run s).2
  | .readdir inode offset => some ((M.readdir inode offset).run.run s).2
  | .read inode offset size => some ((M.read inode offset size).run.run s).2
  | .readlink inode => some ((M.readlink inode).run.run s).2
  | .work => some ((Worker.work M).run s).2
  | .world w => some { s with store := { s.store with world := w } }

inductive Answer where
  | attr : Except FsError Attr → Answer
  | entries : Except FsError (List DirEntry) → Answer
  | bytes : Except FsError Bytes → Answer
  | silent

def answer (M : Mount ω) (s : FsState ω) : FsAction ω → Answer
  | .lookup parent name => .attr ((M.lookup parent name).run.run s).1
  | .getattr inode => .attr ((M.getattr inode).run.run s).1
  | .readdir inode offset => .entries ((M.readdir inode offset).run.run s).1
  | .read inode offset size => .bytes ((M.read inode offset size).run.run s).1
  | .readlink inode => .bytes ((M.readlink inode).run.run s).1
  | .work => .silent
  | .world _ => .silent

def Answer.succeeds : Answer → Bool
  | .attr r => r.toBool
  | .entries r => r.toBool
  | .bytes r => r.toBool
  | .silent => true

/-- The key of a lookup that resolves: its path text, with what is found there. -/
def keyOf (M : Mount ω) (s : FsState ω) : FsAction ω → Option (Bytes × ResolvedEntry)
  | .lookup parent name =>
    match ((parentPath parent : FsM ω Bytes).run.run s).1 with
    | .error _ => none
    | .ok path =>
      match ((M.projection.lookup M.bare M.overlay (joinPath path name)).run.run s.store).1 with
      | .error _ => none
      | .ok found => some (joinPath path name, found)
  | _ => none

/-- Names are asked for one component at a time, and nothing else changes the store. -/
def Undisturbed : FsState ω → FsAction ω → Prop
  | _, .lookup _ name => ProperName name
  | _, .world _ => False
  | _, _ => True

def mergedOf (G : Gix ω) (u : Universe ω) (overlay : RootOverlay) (root : ObjectId) : Merged where
  overlay := overlay
  root := root
  trees oid := (treeOf G oid (u.object oid)).toOption.getD []
  blobs oid := ((u.object oid).map Object.data).getD []

def AllLocal (u : Universe ω) (w : ω) : Prop :=
  ∀ oid, (u.object oid).isSome → u.resident w oid = true

/-- The entry names an object of the kind its mode says; a gitlink names none here. -/
def EntryBacked (G : Gix ω) (u : Universe ω) (oid : ObjectId) (mode : EntryMode) : Prop :=
  match mode with
  | .directory => ∃ es, treeOf G oid (u.object oid) = .ok es
  | .gitlink => True
  | _ => ∃ bytes, u.object oid = some ⟨.blob, bytes⟩

def Backed (G : Gix ω) (u : Universe ω) : Prop :=
  ∀ oid es, treeOf G oid (u.object oid) = .ok es →
    ∀ e ∈ es, EntryBacked G u e.oid (.fromRaw e.modeRaw)

def nothing : ObjectId → Prop := fun _ => False

section Local
variable {G : Gix ω} {u : Universe ω} {w : ω} {overlay : RootOverlay} {root : ObjectId}

theorem found_of_local (local_ : AllLocal u w) : u.found w = u.object := by
  funext oid
  cases object : u.object oid with
  | none => simp [Universe.found, object]
  | some obj =>
    have resident := local_ oid (by simp [object])
    rw [found_of_resident resident, object]

theorem mergedOf_trees {oid : ObjectId} {es : List RawTreeEntry}
    (tree : treeOf G oid (u.object oid) = .ok es) : (mergedOf G u overlay root).trees oid = es := by
  simp [mergedOf, tree, Except.toOption]

theorem mergedOf_blobs {oid : ObjectId} {kind : ObjectKind} {bytes : Bytes}
    (object : u.object oid = some ⟨kind, bytes⟩) :
    (mergedOf G u overlay root).blobs oid = bytes := by
  simp [mergedOf, object]

theorem readable_of_tree {refs : Bytes → Except String ObjectId} {oid : ObjectId}
    {es : List RawTreeEntry} (tree : treeOf G oid (u.object oid) = .ok es) :
    Readable (mergedOf G u overlay root) (G.uncached u.object refs) oid := by
  unfold Readable
  rw [mergedOf_trees tree]
  exact tree

theorem tree_of_readable {refs : Bytes → Except String ObjectId} {oid : ObjectId}
    (readable : Readable (mergedOf G u overlay root) (G.uncached u.object refs) oid) :
    treeOf G oid (u.object oid) = .ok ((mergedOf G u overlay root).trees oid) := readable

theorem closed_of_backed (backed : Backed G u) (refs : Bytes → Except String ObjectId) :
    Closed (mergedOf G u overlay root) (G.uncached u.object refs) := by
  intro tree readable raw member dir
  have entry := backed tree _ (tree_of_readable readable) raw member
  rw [show EntryMode.fromRaw raw.modeRaw = .directory from EntryMode.isDir_iff.mp dir] at entry
  obtain ⟨es, ok⟩ := entry
  exact readable_of_tree ok

def NodeBacked (G : Gix ω) (u : Universe ω) : Node → Prop
  | .entry (.tree e) => EntryBacked G u e.oid e.mode
  | _ => True

theorem reached_backed (backed : Backed G u) {es : List RawTreeEntry}
    (rootTree : treeOf G root (u.object root) = .ok es) {path : List Bytes} {e : TreeEntry}
    (reached : (mergedOf G u overlay root).descend .root path = .ok (.entry (.tree e))) :
    EntryBacked G u e.oid e.mode := by
  have step : ∀ node name found, NodeBacked G u node →
      (mergedOf G u overlay root).child node name = .ok found → NodeBacked G u (.entry found) := by
    intro node name found before child
    rcases node with _ | ⟨f | ⟨label, f⟩⟩
    · rcases child_of_root child with ⟨e, -, rfl⟩ | ⟨-, raw, hit, rfl⟩
      · trivial
      · have listed : raw ∈ es := by
          rw [← mergedOf_trees rootTree]
          exact List.mem_of_find?_eq_some hit
        exact backed root es rootTree raw listed
    · obtain ⟨dir, raw, hit, rfl⟩ := child_of_tree child
      have tree : EntryBacked G u f.oid f.mode := before
      rw [dir] at tree
      obtain ⟨inner, ok⟩ := tree
      rw [mergedOf_trees ok] at hit
      exact backed _ inner ok raw (List.mem_of_find?_eq_some hit)
    · obtain ⟨-, -, -, -, rfl⟩ := child_of_synthetic child
      trivial
  have start : NodeBacked G u .root := trivial
  exact descend_inherits step start reached

end Local

/-- A mount over a truthful gix with every object resident, whose root resolves. -/
structure Setting (M : Mount ω) (u : Universe ω) (w : ω) (root : ObjectId) : Prop where
  answers : M.gix.Answers u
  allLocal : AllLocal u w
  backed : Backed M.gix u
  rooted : M.projection.rootTree (M.gix.uncached u.object (M.gix.findReference w)) = pure root
  rootTree : ∃ es, treeOf M.gix root (u.object root) = .ok es

abbrev Setting.tree (_ : Setting M u w root) : Merged := mergedOf M.gix u M.overlay root

namespace Setting
variable {M : Mount ω} {u : Universe ω} {w : ω} {root : ObjectId} {store : Store ω}

theorem simulates (setting : Setting M u w root) :
    Simulates (At M.gix u nothing w) M.bare (M.gix.uncached u.object (M.gix.findReference w)) := by
  rw [← found_of_local setting.allLocal]
  exact ⟨readTree_returns setting.answers w, commitTree_returns setting.answers w,
    resolveRef_returns w⟩

theorem lookup_whole (setting : Setting M u w root) {path : List Bytes} {node : Node}
    (reached : Reached setting.tree path node) (walkable : node.walkable = true) {name : Bytes}
    (proper : ProperName name) :
    ∃ parent, M.projection.lookup (M.gix.uncached u.object (M.gix.findReference w)) M.overlay
        (join (path ++ [name])) =
      match setting.tree.child node name with
      | .ok found => pure found
      | .error _ => throw (.notFound name parent) := by
  have every : ∀ c ∈ path ++ [name], ProperName c := by
    intro c among
    rcases List.mem_append.mp among with before | here
    · exact reached.proper c before
    · exact List.mem_singleton.mp here ▸ proper
  obtain ⟨es, tree⟩ := setting.rootTree
  exact lookup_child (T := setting.tree) setting.rooted (readable_of_tree tree)
    (closed_of_backed setting.backed _) every reached.descends walkable

theorem resolves (setting : Setting M u w root) (ok : At M.gix u nothing w store)
    {path : List Bytes} {node : Node} (reached : Reached setting.tree path node)
    (walkable : node.walkable = true) {name : Bytes} (proper : ProperName name) :
    Resolves M setting.tree (At M.gix u nothing w) store path node name := by
  obtain ⟨parent, answer⟩ := setting.lookup_whole reached walkable proper
  apply (lookup_returns setting.simulates M.projection M.overlay _ store ok).mono
  intro r after given
  obtain ⟨value, kept⟩ := given
  refine ⟨kept, ?_⟩
  rw [value, answer]
  cases setting.tree.child node name with
  | ok found => rfl
  | error e => exact ⟨parent, rfl⟩

theorem sized (setting : Setting M u w root) {path : List Bytes} {e : TreeEntry}
    (reached : setting.tree.descend .root path = .ok (.entry (.tree e))) (needs : needsHeader e) :
    Sized M setting.tree (At M.gix u nothing w) e.oid := by
  obtain ⟨es, tree⟩ := setting.rootTree
  have backed := reached_backed setting.backed tree reached
  obtain ⟨bytes, object⟩ : ∃ bytes, u.object e.oid = some ⟨.blob, bytes⟩ := by
    rcases needs with mode | mode | mode <;> (rw [mode] at backed; exact backed)
  intro before given
  obtain ⟨truthful, world⟩ := given
  apply hydrateOnMiss_present
  apply (header_gives setting.answers truthful e.oid).mono
  rintro r after ⟨kept, plain | ⟨impossible, -⟩⟩
  · rw [world, found_of_local setting.allLocal, object] at plain
    refine ⟨by rw [plain]; rfl, ⟨.blob, ?_⟩, kept.truthful, kept.world.trans world⟩
    rw [plain, mergedOf_blobs object]
    rfl
  · exact impossible.elim

theorem readTree_gives (setting : Setting M u w root) (ok : At M.gix u nothing w store)
    {oid : ObjectId} {es : List RawTreeEntry} (tree : treeOf M.gix oid (u.object oid) = .ok es) :
    Gives (M.hydrating.readTree oid).run store fun r after =>
      At M.gix u nothing w after ∧ r = .ok (setting.tree.trees oid) := by
  obtain ⟨truthful, world⟩ := ok
  apply hydrateOnMiss_present
  apply (ProjgitStore.readTree_gives setting.answers truthful oid).mono
  intro r after given
  obtain ⟨plain, kept⟩ := given
  rw [world, found_of_local setting.allLocal, tree] at plain
  subst plain
  exact ⟨rfl, ⟨kept.truthful, kept.world.trans world⟩, by rw [mergedOf_trees tree]; rfl⟩

theorem readBlob_gives (setting : Setting M u w root) (ok : At M.gix u nothing w store)
    {oid : ObjectId} {bytes : Bytes} (object : u.object oid = some ⟨.blob, bytes⟩) :
    Gives (M.hydrating.readBlob oid).run store fun r after =>
      At M.gix u nothing w after ∧ r = .ok (setting.tree.blobs oid) := by
  obtain ⟨truthful, world⟩ := ok
  apply hydrateOnMiss_present
  apply (ProjgitStore.readBlob_gives setting.answers truthful oid).mono
  intro r after given
  obtain ⟨plain, kept⟩ := given
  rw [world, found_of_local setting.allLocal, object] at plain
  subst plain
  exact ⟨rfl, ⟨kept.truthful, kept.world.trans world⟩, by rw [mergedOf_blobs object]; rfl⟩

theorem readRoot_whole (setting : Setting M u w root) :
    ∃ listed, setting.tree.children .root = some listed ∧
      M.projection.readRoot (M.gix.uncached u.object (M.gix.findReference w)) M.overlay =
        pure listed := by
  obtain ⟨es, tree⟩ := setting.rootTree
  exact readRoot_lists (T := setting.tree) setting.rooted (readable_of_tree tree)

theorem readRoot_gives (setting : Setting M u w root) (ok : At M.gix u nothing w store) :
    Gives (M.projection.readRoot M.bare M.overlay).run store fun r after =>
      At M.gix u nothing w after ∧
        ∃ listed, setting.tree.children .root = some listed ∧ r = .ok listed := by
  obtain ⟨listed, children, answer⟩ := setting.readRoot_whole
  apply (readRoot_returns setting.simulates M.projection M.overlay store ok).mono
  intro r after given
  obtain ⟨value, kept⟩ := given
  refine ⟨kept, listed, children, ?_⟩
  rw [value, answer]
  rfl

theorem listed_backed (setting : Setting M u w root) {path : List Bytes} {node : Node}
    (reached : setting.tree.descend .root path = .ok node) {listed : List (Bytes × ResolvedEntry)}
    (children : setting.tree.children node = some listed) {name : Bytes} {e : TreeEntry}
    (member : (name, .tree e) ∈ listed) : EntryBacked M.gix u e.oid e.mode := by
  have fromTree : ∀ oid es raw, treeOf M.gix oid (u.object oid) = .ok es →
      (name, ResolvedEntry.tree e) ∈ treePairs raw → (∀ r ∈ raw, r ∈ es) →
      EntryBacked M.gix u e.oid e.mode := by
    intro oid es raw tree among inside
    obtain ⟨r, here, same⟩ := List.mem_map.mp among
    cases same
    exact setting.backed oid es tree r (inside r here)
  rcases node with _ | ⟨d | ⟨label, content | inner | target⟩⟩
  · obtain ⟨es, tree⟩ := setting.rootTree
    simp only [Merged.children, Option.some.injEq] at children
    rw [← children, List.mem_append] at member
    rcases member with overlaid | real
    · obtain ⟨named, -, same⟩ := List.mem_map.mp overlaid
      cases same
    · refine fromTree root es _ tree real fun r among => ?_
      have trees : setting.tree.trees root = es := mergedOf_trees tree
      rw [← trees]
      exact (List.mem_filter.mp among).1
  · obtain ⟨es, tree⟩ := setting.rootTree
    have dirBacked := reached_backed setting.backed tree reached
    cases mode : d.mode <;> simp only [Merged.children, mode] at children dirBacked
    · cases children
    · cases children
    · cases children
    · obtain ⟨inner, ok⟩ := dirBacked
      cases children
      refine fromTree d.oid inner _ ok member fun r among => ?_
      rw [mergedOf_trees ok] at among
      exact among
    · cases children
      cases member
  · cases children
  · cases children
    obtain ⟨named, -, same⟩ := List.mem_map.mp member
    cases same
  · cases children

theorem harvest_known (setting : Setting M u w root) {path : List Bytes} {node : Node}
    (reached : setting.tree.descend .root path = .ok node) {oid : ObjectId}
    (member : oid ∈ harvestedFrom ((setting.tree.children node).getD [])) :
    (u.object oid).isSome := by
  cases children : setting.tree.children node with
  | none => simp [children, harvestedFrom] at member
  | some listed =>
    simp only [children, Option.getD_some, harvestedFrom, List.mem_filterMap] at member
    obtain ⟨⟨name, found⟩, among, harvested⟩ := member
    cases found with
    | synthetic label e => cases harvested
    | tree e =>
      have backed := setting.listed_backed reached children among
      cases mode : e.mode <;> simp only [harvestPrefetchOid, mode] at harvested <;> cases harvested
      all_goals
        rw [mode] at backed
        obtain ⟨bytes, object⟩ := backed
        simp [object]

/-- The invariant of the whole provider. -/
structure Faithful (setting : Setting M u w root) (id : UInt64)
    (keys : List (Bytes × ResolvedEntry)) (s : FsState ω) : Prop where
  serves : Serves M setting.tree id keys s
  store : At M.gix u nothing w s.store
  channel : ∀ task ∈ s.channel, ∀ oid ∈ taskOids task, (u.object oid).isSome

variable {id : UInt64} {keys : List (Bytes × ResolvedEntry)} {s t : FsState ω}
  {setting : Setting M u w root}

theorem Faithful.advances (faithful : setting.Faithful id keys s)
    (advances : Advances M setting.tree id keys (At M.gix u nothing w) s t) :
    setting.Faithful id keys t :=
  ⟨advances.serves, advances.store, advances.channel.symm ▸ faithful.channel⟩

theorem Faithful.quiet (faithful : setting.Faithful id keys s)
    (quiet : Quiet (At M.gix u nothing w) s t) : setting.Faithful id keys t :=
  faithful.advances (quiet.advances faithful.serves)

theorem Faithful.lists (faithful : setting.Faithful id keys s) {harvested : List ObjectId}
    (known : ∀ oid ∈ harvested, (u.object oid).isSome)
    (lists : Lists (At M.gix u nothing w) harvested s t) : setting.Faithful id keys t where
  serves := faithful.serves.of_attrs lists.attrs lists.projectionId
  store := lists.store
  channel task among oid inside := by
    rcases lists.channel task among with old | new
    · exact faithful.channel task old oid inside
    · exact known oid (new ▸ inside)

end Setting

section Unknown
variable {M : Mount ω} {s : FsState ω} {i : UInt64}

theorem gives_cachedSnapshot_none (unknown : s.attrs.lookup i = none)
    (post : Except FsError AttrSnapshot → FsState ω → Prop) :
    Gives (cachedSnapshot i : FsM ω AttrSnapshot).run s post ↔ post (.error .notFound) s := by
  unfold cachedSnapshot
  rw [gives_run_bind]
  change Sequel _ post (.ok s) s ↔ _
  rw [sequel_ok, unknown]
  rfl

theorem parentPath_state (parent : UInt64) (s : FsState ω) :
    Gives (parentPath parent : FsM ω Bytes).run s fun _ t => t = s := by
  unfold parentPath
  by_cases isRoot : parent = rootInode
  · simp only [isRoot, if_true]
    rfl
  · simp only [isRoot, if_false]
    rw [gives_run_bind]
    change Sequel _ _ (.ok s) s
    rw [sequel_ok]
    split <;> rfl

theorem keyOf_lookup {T : Merged} {id : UInt64} {ok : Store ω → Prop} {path : List Bytes}
    {node : Node} (held : Held M T id s i path node) {name : Bytes} {found : ResolvedEntry}
    (resolves : node.walkable = true → Resolves M T ok s.store path node (fromUtf8Lossy name))
    (child : T.child node (fromUtf8Lossy name) = .ok found) :
    keyOf M s (.lookup i name) = some (join (path ++ [fromUtf8Lossy name]), found) := by
  obtain ⟨-, ⟨walkable, parent⟩ | ⟨-, e, -, stopped⟩⟩ := parentPath_gives held
  · obtain ⟨-, answer⟩ := resolves walkable
    rw [child] at answer
    simp only [keyOf, parent, joinPath_join held.reached, answer]
  · rw [stopped] at child
    cases child

theorem lookup_unknown (notRoot : i ≠ rootInode) (unknown : s.attrs.lookup i = none)
    (name : Bytes) :
    Gives (M.lookup i name).run s fun r t => r = .error .notFound ∧ t = s := by
  unfold Mount.lookup parentPath
  simp only [notRoot, if_false, gives_run_bind]
  change Sequel _ _ (.ok s) s
  rw [sequel_ok, unknown]
  exact ⟨rfl, rfl⟩

theorem getattr_unknown (notRoot : i ≠ rootInode) (unknown : s.attrs.lookup i = none) :
    Gives (M.getattr i).run s fun r t => r = .error .notFound ∧ t = s := by
  unfold Mount.getattr
  simp only [notRoot, if_false, gives_run_bind, gives_cachedSnapshot_none unknown]
  exact ⟨rfl, rfl⟩

theorem getattr_state (M : Mount ω) (s : FsState ω) (i : UInt64) :
    Gives (M.getattr i).run s fun _ t => t = s := by
  unfold Mount.getattr
  by_cases isRoot : i = rootInode
  · simp only [isRoot, if_true]
    exact rfl
  · simp only [isRoot, if_false, gives_run_bind]
    cases there : s.attrs.lookup i with
    | none => rw [gives_cachedSnapshot_none there]; exact rfl
    | some snap => rw [gives_cachedSnapshot there]; exact rfl

theorem readdir_unknown (notRoot : i ≠ rootInode) (unknown : s.attrs.lookup i = none) :
    Gives (M.readdir i 0).run s fun r t => r = .error .notFound ∧ t = s := by
  unfold Mount.readdir
  simp only [Nat.lt_irrefl, if_false, notRoot, gives_run_bind, gives_cachedSnapshot_none unknown]
  exact ⟨rfl, rfl⟩

theorem readdir_later (M : Mount ω) (s : FsState ω) (i : UInt64) {offset : Nat}
    (later : 0 < offset) : Gives (M.readdir i offset).run s fun r t => r = .ok [] ∧ t = s := by
  unfold Mount.readdir
  simp only [later, if_true]
  exact ⟨rfl, rfl⟩

theorem read_unknown (unknown : s.attrs.lookup i = none) (offset size : Nat) :
    Gives (M.read i offset size).run s fun r t => r = .error .notFound ∧ t = s := by
  unfold Mount.read
  simp only [gives_run_bind, gives_cachedSnapshot_none unknown]
  exact ⟨rfl, rfl⟩

theorem readlink_unknown (unknown : s.attrs.lookup i = none) :
    Gives (M.readlink i).run s fun r t => r = .error .notFound ∧ t = s := by
  unfold Mount.readlink
  simp only [gives_run_bind, gives_cachedSnapshot_none unknown]
  exact ⟨rfl, rfl⟩

end Unknown

namespace Setting
variable {M : Mount ω} {u : Universe ω} {w : ω} {root : ObjectId} {id : UInt64}
  {keys : List (Bytes × ResolvedEntry)} {s : FsState ω} {setting : Setting M u w root}
  {i : UInt64} {path : List Bytes} {node : Node} {name : Bytes}

theorem resolves_held (faithful : setting.Faithful id keys s)
    (held : Held M setting.tree id s i path node) (proper : ProperName name)
    (walkable : node.walkable = true) :
    Resolves M setting.tree (At M.gix u nothing w) s.store path node (fromUtf8Lossy name) :=
  setting.resolves faithful.store held.reached walkable (lossy_proper proper).1

theorem sized_held (held : Held M setting.tree id s i path node) {e : TreeEntry}
    (child : setting.tree.child node name = .ok (.tree e)) (needs : needsHeader e) :
    Sized M setting.tree (At M.gix u nothing w) e.oid := by
  have reached : setting.tree.descend .root (path ++ [name]) = .ok (.entry (.tree e)) := by
    rw [descend_snoc held.reached.descends, child]
  exact setting.sized reached needs

theorem lookup_told (faithful : setting.Faithful id keys s)
    (held : Held M setting.tree id s i path node) (proper : ProperName name) :
    Gives (M.lookup i name).run s fun r _ =>
      match setting.tree.child node (fromUtf8Lossy name) with
      | .error e => r = .error e
      | .ok found =>
        r = .ok (attrAt M setting.tree id (path ++ [fromUtf8Lossy name]) (.entry found)) := by
  refine (lookup_answers faithful.serves.projectionId faithful.store held
    (resolves_held faithful held proper) fun e => sized_held held).mono ?_
  intro r t given
  cases child : setting.tree.child node (fromUtf8Lossy name) with
  | error e =>
    rw [child] at given
    exact given.1
  | ok found =>
    rw [child] at given
    exact given.1

theorem lookup_held (faithful : setting.Faithful id keys s)
    (distinct : DistinctKeys M.hasher id keys) (held : Held M setting.tree id s i path node)
    (proper : ProperName name)
    (used : ∀ found, setting.tree.child node (fromUtf8Lossy name) = .ok found →
      (join (path ++ [fromUtf8Lossy name]), found) ∈ keys) :
    Gives (M.lookup i name).run s fun r t =>
      setting.Faithful id keys t ∧ Remembers s t ∧
      match setting.tree.child node (fromUtf8Lossy name) with
      | .error e => r = .error e
      | .ok found =>
        r = .ok (attrAt M setting.tree id (path ++ [fromUtf8Lossy name]) (.entry found)) ∧
        Held M setting.tree id t
          (inodeAt M.hasher id (path ++ [fromUtf8Lossy name]) (.entry found))
          (path ++ [fromUtf8Lossy name]) (.entry found) := by
  refine (lookup_gives distinct faithful.serves faithful.store held proper
    (resolves_held faithful held proper) (fun e => sized_held held) used).mono ?_
  intro r t given
  obtain ⟨advances, answer⟩ := given
  exact ⟨faithful.advances advances, advances.remembers, answer⟩

theorem readdir_held (faithful : setting.Faithful id keys s)
    (held : Held M setting.tree id s i path node) :
    Gives (M.readdir i 0).run s fun r t => setting.Faithful id keys t ∧ t.attrs = s.attrs ∧
      match setting.tree.children node with
      | none => r = .error .notADirectory
      | some listed => r = .ok (listed.map (listedAt M setting.tree id path)) := by
  refine (readdir_gives faithful.serves faithful.store held ?_ ?_).mono ?_
  · intro _
    exact setting.readRoot_gives faithful.store
  · rintro e rfl mode
    obtain ⟨es, tree⟩ := setting.rootTree
    have backed := reached_backed setting.backed tree held.reached.descends
    rw [mode] at backed
    obtain ⟨inner, ok⟩ := backed
    exact setting.readTree_gives faithful.store ok
  · intro r t given
    obtain ⟨lists, answer⟩ := given
    exact ⟨faithful.lists (fun oid => setting.harvest_known held.reached.descends) lists,
      lists.attrs, answer⟩

theorem read_held (faithful : setting.Faithful id keys s)
    (held : Held M setting.tree id s i path node) (offset size : Nat) :
    Gives (M.read i offset size).run s fun r t => setting.Faithful id keys t ∧
      match setting.tree.content node with
      | none => r = .error .notAFile
      | some bytes => r = .ok (sliceBlob bytes offset size) := by
  refine (read_gives faithful.store held offset size ?_).mono ?_
  · rintro e rfl mode
    obtain ⟨es, tree⟩ := setting.rootTree
    have backed := reached_backed setting.backed tree held.reached.descends
    obtain ⟨bytes, object⟩ : ∃ bytes, u.object e.oid = some ⟨.blob, bytes⟩ := by
      rcases mode with mode | mode <;> (rw [mode] at backed; exact backed)
    exact setting.readBlob_gives faithful.store object
  · intro r t given
    obtain ⟨quiet, answer⟩ := given
    exact ⟨faithful.quiet quiet, answer⟩

theorem readlink_held (faithful : setting.Faithful id keys s)
    (held : Held M setting.tree id s i path node) :
    Gives (M.readlink i).run s fun r t => setting.Faithful id keys t ∧
      match setting.tree.target node with
      | none => r = .error .notASymlink
      | some bytes => r = .ok bytes := by
  refine (readlink_gives faithful.store held ?_).mono ?_
  · rintro e rfl mode
    obtain ⟨es, tree⟩ := setting.rootTree
    have backed := reached_backed setting.backed tree held.reached.descends
    rw [mode] at backed
    obtain ⟨bytes, object⟩ := backed
    exact setting.readBlob_gives faithful.store object
  · intro r t given
    obtain ⟨quiet, answer⟩ := given
    exact ⟨faithful.quiet quiet, answer⟩

theorem header_known (setting : Setting M u w root) {oid : ObjectId}
    (known : (u.object oid).isSome) {store : Store ω} (ok : At M.gix u nothing w store) :
    Gives (M.bare.header oid).run store fun r after =>
      At M.gix u nothing w after ∧ r.toBool = true := by
  obtain ⟨truthful, world⟩ := ok
  obtain ⟨obj, object⟩ := Option.isSome_iff_exists.mp known
  apply (header_gives setting.answers truthful oid).mono
  rintro r after ⟨kept, plain | ⟨impossible, -⟩⟩
  · rw [world, found_of_local setting.allLocal, object] at plain
    exact ⟨⟨kept.truthful, kept.world.trans world⟩, by rw [plain]; rfl⟩
  · exact impossible.elim

theorem pending_none {ok : Store ω → Prop} {absent : ObjectId → StateM (Store ω) Bool}
    {oids : List ObjectId} (present : ∀ oid ∈ oids, ∀ store, ok store →
      Gives (absent oid) store fun r after => ok after ∧ r = false) {store : Store ω}
    (okS : ok store) :
    Gives (HydratingObjectStore.pending absent oids) store fun r after => ok after ∧ r = [] := by
  induction oids generalizing store with
  | nil => exact ⟨okS, rfl⟩
  | cons oid rest ih =>
    unfold HydratingObjectStore.pending
    rw [gives_bind]
    apply (present oid (by simp) store okS).mono
    intro r after given
    obtain ⟨okAfter, rfl⟩ := given
    simp only [gives_bind]
    apply (ih (fun other among => present other (List.mem_cons_of_mem _ among)) okAfter).mono
    intro r final given
    obtain ⟨okFinal, rfl⟩ := given
    exact ⟨okFinal, rfl⟩

/-- A batch whose inputs are all there asks nobody. -/
theorem batch_none {ok : Store ω → Prop} {H : HydratingObjectStore (StateM (Store ω))}
    {absent : ObjectId → StateM (Store ω) Bool} {ask : List ObjectId → StateM (Store ω) (List HeaderProbe)}
    {oids : List ObjectId} (present : ∀ oid ∈ oids, ∀ store, ok store →
      Gives (absent oid) store fun r after => ok after ∧ r = false) :
    Keeps ok (H.batch absent ask oids) := by
  intro store okS
  unfold HydratingObjectStore.batch
  rw [gives_bind]
  apply (pending_none present okS).mono
  intro r after given
  obtain ⟨okAfter, rfl⟩ := given
  exact okAfter

theorem prefetchHeaders_known (setting : Setting M u w root) {oids : List ObjectId}
    (known : ∀ oid ∈ oids, (u.object oid).isSome) :
    Keeps (At M.gix u nothing w) (M.hydrating.prefetchHeaders oids) := by
  refine batch_none fun oid among store ok => ?_
  rw [gives_bind]
  apply (setting.header_known (known oid among) ok).mono
  intro r after given
  obtain ⟨okAfter, there⟩ := given
  exact ⟨okAfter, by rw [there]; rfl⟩

theorem fetchObjects_known (setting : Setting M u w root) {oids : List ObjectId}
    (known : ∀ oid ∈ oids, (u.object oid).isSome) :
    Keeps (At M.gix u nothing w) (M.hydrating.fetchObjects oids) := by
  unfold HydratingObjectStore.fetchObjects
  by_cases empty : oids.isEmpty = true
  · simp only [empty, if_true]
    exact keeps_pure _ _
  · simp only [empty, Bool.false_eq_true, if_false]
    refine batch_none fun oid among store ok => ?_
    rw [gives_bind]
    apply (contains_gives setting.answers oid store).mono
    intro r after given
    obtain ⟨rfl, rfl⟩ := given
    refine ⟨ok, ?_⟩
    rw [ok.2, setting.allLocal oid (known oid among)]
    rfl

theorem chunks_mem {fuel : Nat} {oids chunk : List ObjectId} {oid : ObjectId}
    (piece : chunk ∈ Worker.chunks fuel oids) (inside : oid ∈ chunk) : oid ∈ oids := by
  induction fuel generalizing oids with
  | zero => cases piece
  | succ fuel ih =>
    unfold Worker.chunks at piece
    split at piece
    · cases piece
    · rcases List.mem_cons.mp piece with rfl | later
      · exact List.mem_of_mem_take inside
      · exact List.mem_of_mem_drop (ih later)

theorem warmHeaders_known (setting : Setting M u w root) {pieces : List (List ObjectId)}
    (known : ∀ chunk ∈ pieces, ∀ oid ∈ chunk, (u.object oid).isSome) :
    Keeps (At M.gix u nothing w) (Worker.warmHeaders M pieces) := by
  induction pieces with
  | nil => exact keeps_pure _ ()
  | cons chunk rest ih =>
    exact keeps_bind (setting.prefetchHeaders_known (known chunk (by simp))) fun _ =>
      ih fun other among => known other (List.mem_cons_of_mem _ among)

theorem blobsUnderCap_known (setting : Setting M u w root) {oids : List ObjectId}
    (known : ∀ oid ∈ oids, (u.object oid).isSome) {store : Store ω}
    (ok : At M.gix u nothing w store) :
    Gives (Worker.blobsUnderCap M oids) store fun keep after =>
      At M.gix u nothing w after ∧ ∀ oid ∈ keep, oid ∈ oids := by
  induction oids generalizing store with
  | nil => exact ⟨ok, fun _ among => among⟩
  | cons oid rest ih =>
    unfold Worker.blobsUnderCap
    rw [gives_bind]
    apply (setting.header_known (known oid (by simp)) ok).mono
    intro r after given
    obtain ⟨okAfter, -⟩ := given
    simp only [gives_bind]
    apply (ih (fun other among => known other (List.mem_cons_of_mem _ among)) okAfter).mono
    intro keep final given
    obtain ⟨okFinal, inside⟩ := given
    refine ⟨okFinal, fun other among => ?_⟩
    have wider : ∀ b : Bool, other ∈ (if b then oid :: keep else keep) → other ∈ oid :: keep := by
      intro b kept
      cases b with
      | true => exact kept
      | false => exact List.mem_cons_of_mem _ kept
    exact List.mem_cons.mpr ((List.mem_cons.mp (wider _ among)).imp_right (inside other))

theorem warmBlobs_known (setting : Setting M u w root) {pieces : List (List ObjectId)}
    (known : ∀ chunk ∈ pieces, ∀ oid ∈ chunk, (u.object oid).isSome) :
    Keeps (At M.gix u nothing w) (Worker.warmBlobs M pieces) := by
  induction pieces with
  | nil => exact keeps_pure _ ()
  | cons chunk rest ih =>
    have later := ih fun other among => known other (List.mem_cons_of_mem _ among)
    intro store ok
    unfold Worker.warmBlobs
    rw [gives_bind]
    apply (setting.blobsUnderCap_known (known chunk (by simp)) ok).mono
    intro keep after given
    obtain ⟨okAfter, inside⟩ := given
    by_cases empty : keep.isEmpty = true
    · simp only [empty, if_true]
      exact later after okAfter
    · simp only [empty, Bool.false_eq_true, if_false]
      exact keeps_bind (setting.fetchObjects_known fun oid among =>
        known chunk (by simp) oid (inside oid among)) (fun _ => later) after okAfter

theorem work_keeps (faithful : setting.Faithful id keys s) :
    Gives (Worker.work M) s fun _ t => setting.Faithful id keys t := by
  unfold Worker.work
  rw [gives_bind, gives_get]
  cases queued : s.channel with
  | nil => exact faithful
  | cons task rest =>
    simp only [gives_bind, gives_modify, gives_zoom]
    have known : ∀ chunk ∈ Worker.chunks (taskOids task).length (taskOids task), ∀ oid ∈ chunk,
        (u.object oid).isSome := fun chunk piece oid inside =>
      faithful.channel task (by simp [queued]) oid (chunks_mem piece inside)
    have done : ∀ store, At M.gix u nothing w store →
        setting.Faithful id keys { s with channel := rest, store := store } := fun store ok =>
      ⟨faithful.serves.of_attrs rfl rfl, ok,
        fun other among => faithful.channel other (by rw [queued]; exact List.mem_cons_of_mem _ among)⟩
    cases task with
    | headers oids =>
      exact (setting.warmHeaders_known known s.store faithful.store).mono fun _ => done
    | blobs oids =>
      exact (setting.warmBlobs_known known s.store faithful.store).mono fun _ => done

theorem step_faithful (distinct : DistinctKeys M.hasher id keys) (s : FsState ω)
    (action : FsAction ω) (t : FsState ω) (stepped : fsStep M s action = some t)
    (allowed : Undisturbed s action ∧ ∀ key, keyOf M s action = some key → key ∈ keys)
    (faithful : setting.Faithful id keys s) : setting.Faithful id keys t := by
  obtain ⟨calm, used⟩ := allowed
  have same : ∀ t : FsState ω, t = s → setting.Faithful id keys t := fun t eq => eq ▸ faithful
  have notRoot : ∀ i, s.attrs.lookup i = none → i ≠ rootInode := by
    rintro i unknown rfl
    rw [faithful.serves.root] at unknown
    cases unknown
  cases action with
  | lookup parent name =>
    cases stepped
    cases there : s.attrs.lookup parent with
    | none => exact same _ (lookup_unknown (notRoot parent there) there name).2
    | some snap =>
      obtain ⟨path, node, held, -⟩ := faithful.serves.cached parent snap there
      refine (lookup_held faithful distinct held calm fun found child => ?_).1
      exact used _ (keyOf_lookup held (resolves_held faithful held calm) child)
  | getattr inode =>
    cases stepped
    exact same _ (getattr_state M s inode)
  | readdir inode offset =>
    cases stepped
    rcases Nat.eq_zero_or_pos offset with rfl | later
    · cases there : s.attrs.lookup inode with
      | none => exact same _ (readdir_unknown (notRoot inode there) there).2
      | some snap =>
        obtain ⟨path, node, held, -⟩ := faithful.serves.cached inode snap there
        exact (readdir_held faithful held).1
    · exact same _ (readdir_later M s inode later).2
  | read inode offset size =>
    cases stepped
    cases there : s.attrs.lookup inode with
    | none => exact same _ (read_unknown there offset size).2
    | some snap =>
      obtain ⟨path, node, held, -⟩ := faithful.serves.cached inode snap there
      exact (read_held faithful held offset size).1
  | readlink inode =>
    cases stepped
    cases there : s.attrs.lookup inode with
    | none => exact same _ (readlink_unknown there).2
    | some snap =>
      obtain ⟨path, node, held, -⟩ := faithful.serves.cached inode snap there
      exact (readlink_held faithful held).1
  | work =>
    cases stepped
    exact work_keeps faithful
  | world w => exact calm.elim

theorem run_faithful {start : FsState ω} {actions : List (FsAction ω)}
    (distinct : DistinctKeys M.hasher id keys)
    (among : ∀ key ∈ seen (fsStep M) (keyOf M) start actions, key ∈ keys)
    (run : exec (fsStep M) start actions = some s)
    (calm : Meets (fsStep M) Undisturbed start actions) (fresh : setting.Faithful id keys start) :
    setting.Faithful id keys s := by
  refine exec_keeps_meeting (step_faithful distinct) run (meets_and calm ?_) fresh
  refine meets_of_each fun before action after mid same first key shown => ?_
  exact among key (mem_seen.mpr ⟨before, action, after, mid, same, first, shown⟩)

end Setting
def resolveAt (G : Gix ω) (w : ω) : Projection → Except ProjectionError ObjectId
  | .ref name => ((G.findReference w name).mapError .backend).mapError .store
  | .commit oid => .ok oid
  | .subtree oid _ => .ok oid

theorem resolveCommit_gives (G : Gix ω) (projection : Projection) (s : Store ω) :
    Gives (projection.resolveCommit (G.handle : StoreHandle (StateM (Store ω)))).run s
      fun r t => r = resolveAt G s.world projection ∧ t = s := by
  cases projection <;> exact ⟨rfl, rfl⟩

/-- `new` looks the commit up and starts with the root alone. -/
theorem new_gives (spec : MountSpec ω) (store : Store ω) :
    Gives spec.new.run store fun r _ =>
      r = (resolveAt spec.gix store.world spec.projection).bind fun oid =>
        ((commitTimeAt spec.gix store.world oid).mapError .store).map fun time =>
          (spec.mount time, spec.start store) := by
  unfold MountSpec.new
  rw [gives_run_bind]
  apply (resolveCommit_gives spec.gix spec.projection store).mono
  intro r t given
  obtain ⟨resolved, unchanged⟩ := given
  rw [resolved, unchanged]
  cases resolveAt spec.gix store.world spec.projection with
  | error e => rfl
  | ok oid =>
    rw [sequel_ok, gives_run_bind, gives_run_adapt]
    apply (commitTime_gives spec.gix oid store).mono
    intro r t given
    obtain ⟨told, unchanged⟩ := given
    rw [told, unchanged]
    simp only [Except.bind]
    cases commitTimeAt spec.gix store.world oid <;> rfl

theorem new_mount {spec : MountSpec ω} {store : Store ω} {M : Mount ω} {start : FsState ω}
    (built : (spec.new.run.run store).1 = .ok (M, start)) :
    start = spec.start store ∧ ∃ time, M = spec.mount time := by
  have given := (new_gives spec store).symm.trans built
  cases resolved : resolveAt spec.gix store.world spec.projection with
  | error e =>
    rw [resolved] at given
    cases given
  | ok oid =>
    rw [resolved] at given
    cases time : commitTimeAt spec.gix store.world oid with
    | error e => simp [Except.bind, time, Except.mapError, Except.map] at given
    | ok seconds =>
      simp only [Except.bind, time, Except.mapError, Except.map, Except.ok.injEq,
        Prod.mk.injEq] at given
      exact ⟨given.2.symm, seconds, given.1.symm⟩

theorem start_serves {spec : MountSpec ω} {store : Store ω} {M : Mount ω} {start : FsState ω}
    (built : (spec.new.run.run store).1 = .ok (M, start)) (T : Merged)
    (keys : List (Bytes × ResolvedEntry)) :
    Serves M T spec.projectionId keys start ∧ start.channel = [] ∧ start.store = store := by
  obtain ⟨rfl, time, rfl⟩ := new_mount built
  have rooted : (spec.start store).attrs.lookup rootInode = some .root := AList.lookup_insert _
  refine ⟨⟨rfl, rooted, ?_⟩, rfl, rfl⟩
  intro i snap cached
  by_cases isRoot : i = rootInode
  · subst isRoot
    exact ⟨[], .root, ⟨reached_root _, rfl, rooted⟩, trivial⟩
  · have absent : (spec.start store).attrs.lookup i = none :=
      (AList.lookup_insert_ne isRoot).trans (AList.lookup_empty i)
    rw [absent] at cached
    cases cached

theorem start_faithful {spec : MountSpec ω} {u : Universe ω} {w : ω} {root : ObjectId}
    {store : Store ω} {M : Mount ω} {start : FsState ω} (setting : Setting M u w root)
    (opened : At M.gix u nothing w store)
    (built : (spec.new.run.run store).1 = .ok (M, start)) (keys : List (Bytes × ResolvedEntry)) :
    setting.Faithful spec.projectionId keys start := by
  obtain ⟨serves, channel, same⟩ := start_serves built setting.tree keys
  refine ⟨serves, same ▸ opened, ?_⟩
  intro task among
  rw [channel] at among
  cases among

end ProjgitServing
