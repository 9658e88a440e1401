import Projgit.FsProvider
import Projgit.Projection

/-!
What a mount shows: one merged tree. Its root holds the overlay's entries and, behind
them, the entries of the projected git tree; below, git trees and synthetic directories
hold their own. `descend` follows names from node to node. The second half shows that
`Projection::lookup`, which resolves every path again from the root, is one step of it.
-/
namespace ProjgitMerged
open Utf8Bytes SlashPath ProjgitStore ProjgitProjection ProjgitFs Stateful

inductive Node where
  | root
  | entry : ResolvedEntry → Node

/-- The content of trees and blobs is given outright; nothing is fetched or cached. -/
structure Merged where
  overlay : RootOverlay
  root : ObjectId
  trees : ObjectId → List RawTreeEntry
  blobs : ObjectId → Bytes

def treePairs (raw : List RawTreeEntry) : List (Bytes × ResolvedEntry) :=
  raw.map fun e => (e.name, .tree (.ofRaw e))

def syntheticPairs (children : List (Bytes × SyntheticEntry)) : List (Bytes × ResolvedEntry) :=
  children.map fun named => (named.1, .synthetic named.1 named.2)

namespace Merged
variable (T : Merged)

/-- The children of a directory in listing order; `none` is not a directory. -/
def children : Node → Option (List (Bytes × ResolvedEntry))
  | .root => some (syntheticPairs T.overlay.entries ++
      treePairs ((T.trees T.root).filter fun e => !T.overlay.wouldCollide e.name))
  | .entry (.tree e) =>
    match e.mode with
    | .directory => some (treePairs (T.trees e.oid))
    | .gitlink => some []
    | _ => none
  | .entry (.synthetic _ (.directory children)) => some (syntheticPairs children)
  | .entry (.synthetic _ _) => none

def child (node : Node) (name : Bytes) : Except FsError ResolvedEntry :=
  match T.children node with
  | none => .error .notADirectory
  | some listed =>
    match listed.lookup name with
    | none => .error .notFound
    | some found => .ok found

/-- Follow the names; a failure says which component was not found, by what is left. -/
def descend : Node → List Bytes → Except (FsError × List Bytes) Node
  | node, [] => .ok node
  | node, name :: rest =>
    match T.child node name with
    | .error e => .error (e, name :: rest)
    | .ok found => descend (.entry found) rest

def stat : Node → FileType × Nat × UInt16
  | .root => (.directory, 0, 0o755)
  | .entry (.tree e) =>
    match e.mode with
    | .regularFile => (.regularFile, (T.blobs e.oid).length, 0o644)
    | .executableFile => (.regularFile, (T.blobs e.oid).length, 0o755)
    | .symlink => (.symlink, (T.blobs e.oid).length, 0o777)
    | .directory | .gitlink => (.directory, 0, 0o755)
  | .entry (.synthetic _ (.file content modeRaw)) =>
    (.regularFile, content.length, if modeRaw = 0o100755 then 0o755 else 0o644)
  | .entry (.synthetic _ (.directory _)) => (.directory, 0, 0o755)
  | .entry (.synthetic _ (.symlink target)) => (.symlink, target.length, 0o777)

def content : Node → Option Bytes
  | .entry (.tree e) =>
    match e.mode with
    | .regularFile | .executableFile => some (T.blobs e.oid)
    | _ => none
  | .entry (.synthetic _ (.file content _)) => some content
  | _ => none

def target : Node → Option Bytes
  | .entry (.tree e) => if e.mode = .symlink then some (T.blobs e.oid) else none
  | .entry (.synthetic _ (.symlink target)) => some target
  | _ => none

end Merged

theorem lookup_treePairs (raw : List RawTreeEntry) (name : Bytes) :
    (treePairs raw).lookup name =
      (raw.find? (·.name = name)).map fun e => .tree (.ofRaw e) := by
  induction raw with
  | nil => rfl
  | cons e rest ih =>
    unfold treePairs at ih ⊢
    by_cases same : e.name = name
    · simp [same]
    · simp [List.lookup_cons, ih, same, beq_eq_false_iff_ne.mpr (Ne.symm same)]

theorem lookup_syntheticPairs (children : List (Bytes × SyntheticEntry)) (name : Bytes) :
    (syntheticPairs children).lookup name =
      (children.lookup name).map fun e => .synthetic name e := by
  induction children with
  | nil => rfl
  | cons named rest ih =>
    obtain ⟨key, e⟩ := named
    unfold syntheticPairs at ih ⊢
    by_cases same : name = key
    · subst same
      simp
    · simp [List.lookup_cons, ih, beq_eq_false_iff_ne.mpr same]

theorem find_visible {overlay : RootOverlay} {name : Bytes} (clear : overlay.get name = none)
    (raw : List RawTreeEntry) :
    (raw.filter fun e => !overlay.wouldCollide e.name).find? (·.name = name) =
      raw.find? (·.name = name) := by
  induction raw with
  | nil => rfl
  | cons e rest ih =>
    by_cases same : e.name = name
    · simp [same, RootOverlay.wouldCollide, clear]
    · by_cases shadowed : overlay.wouldCollide e.name = true
      · simp [shadowed, ih, same]
      · simp [shadowed, ih, same]

theorem lookup_root (T : Merged) (name : Bytes) :
    (syntheticPairs T.overlay.entries ++
      treePairs ((T.trees T.root).filter fun e => !T.overlay.wouldCollide e.name)).lookup name =
    match T.overlay.get name with
    | some e => some (.synthetic name e)
    | none => ((T.trees T.root).find? (·.name = name)).map fun e => .tree (.ofRaw e) := by
  rw [List.lookup_append, lookup_syntheticPairs, lookup_treePairs]
  cases found : T.overlay.get name with
  | some e =>
    have here : T.overlay.entries.lookup name = some e := found
    simp [here]
  | none =>
    have here : T.overlay.entries.lookup name = none := found
    simp [here, find_visible found]

/-- A name the kernel can ask for. -/
structure ProperName (name : Bytes) : Prop extends Component name where
  noNul : 0 ∉ name
  notDot : name ≠ dot
  notDotdot : name ≠ dotdot

theorem splitPath_join {path : List Bytes} (proper : ∀ c ∈ path, ProperName c) :
    splitPath (join path) = .ok path := by
  have clean : 0 ∉ join path := by
    intro member
    rcases mem_join member with same | ⟨c, among, inside⟩
    · exact absurd same (by decide)
    · exact (proper c among).noNul inside
  have kept : (split (join path)).filter (· ≠ []) = path := by
    by_cases empty : path = []
    · subst empty
      rfl
    · rw [split_join (fun c among => (proper c among).toComponent) empty]
      exact List.filter_eq_self.mpr fun c among => by simpa using (proper c among).nonempty
  have plain : ¬ (dot ∈ path ∨ dotdot ∈ path) := by
    rintro (among | among)
    · exact (proper _ among).notDot rfl
    · exact (proper _ among).notDotdot rfl
  simp only [splitPath, clean, if_false, kept, plain]

def Node.walkable : Node → Bool
  | .root => true
  | .entry (.tree e) => e.mode.isDir
  | .entry (.synthetic _ (.directory _)) => true
  | .entry (.synthetic _ _) => false

section Descent
variable {T : Merged}

theorem child_ok {node : Node} {name : Bytes} {found : ResolvedEntry}
    (ok : T.child node name = .ok found) :
    ∃ listed, T.children node = some listed ∧ listed.lookup name = some found := by
  unfold Merged.child at ok
  split at ok
  · cases ok
  · rename_i listed there
    split at ok
    · cases ok
    · rename_i hit
      cases ok
      exact ⟨listed, there, hit⟩

theorem child_walkable {node : Node} {name : Bytes} {found : ResolvedEntry}
    (ok : T.child node name = .ok found) : node.walkable = true := by
  obtain ⟨listed, there, hit⟩ := child_ok ok
  rcases node with _ | ⟨e | ⟨label, content | children | target⟩⟩
  · rfl
  · cases mode : e.mode <;> simp only [Merged.children, mode] at there
    · cases there
    · cases there
    · cases there
    · simp [Node.walkable, mode, EntryMode.isDir]
    · cases there
      cases hit
  · cases there
  · rfl
  · cases there

theorem descend_cons_ok {node last : Node} {name : Bytes} {rest : List Bytes}
    (ok : T.descend node (name :: rest) = .ok last) :
    ∃ found, T.child node name = .ok found ∧ T.descend (.entry found) rest = .ok last := by
  simp only [Merged.descend] at ok
  split at ok
  · cases ok
  · rename_i found there
    exact ⟨found, there, ok⟩

theorem descend_inherits {holds : Node → Prop}
    (step : ∀ node name found, holds node → T.child node name = .ok found → holds (.entry found))
    {node last : Node} {path : List Bytes} (start : holds node)
    (ok : T.descend node path = .ok last) : holds last := by
  induction path generalizing node with
  | nil =>
    cases ok
    exact start
  | cons name rest ih =>
    obtain ⟨found, here, below⟩ := descend_cons_ok ok
    exact ih (step node name found start here) below

theorem descend_walkable {node last : Node} {path : List Bytes}
    (ok : T.descend node path = .ok last) (walkable : last.walkable = true) :
    node.walkable = true := by
  cases path with
  | nil =>
    cases ok
    exact walkable
  | cons name rest =>
    obtain ⟨found, here, -⟩ := descend_cons_ok ok
    exact child_walkable here

theorem descend_snoc {node last : Node} {path : List Bytes} (ok : T.descend node path = .ok last)
    (name : Bytes) :
    T.descend node (path ++ [name]) =
      match T.child last name with
      | .error e => .error (e, [name])
      | .ok found => .ok (.entry found) := by
  induction path generalizing node with
  | nil =>
    cases ok
    rfl
  | cons x rest ih =>
    obtain ⟨found, here, more⟩ := descend_cons_ok ok
    simp only [List.cons_append, Merged.descend, here]
    exact ih more

theorem child_of_tree {e : TreeEntry} {name : Bytes} {found : ResolvedEntry}
    (ok : T.child (.entry (.tree e)) name = .ok found) :
    e.mode = .directory ∧ ∃ raw, (T.trees e.oid).find? (·.name = name) = some raw ∧
      found = .tree (.ofRaw raw) := by
  have dir : e.mode = .directory := EntryMode.isDir_iff.mp (child_walkable ok)
  obtain ⟨listed, there, hit⟩ := child_ok ok
  simp only [Merged.children, dir, Option.some.injEq] at there
  rw [← there, lookup_treePairs, Option.map_eq_some_iff] at hit
  obtain ⟨raw, member, rfl⟩ := hit
  exact ⟨dir, raw, member, rfl⟩

theorem child_of_synthetic {label : Bytes} {e : SyntheticEntry} {name : Bytes}
    {found : ResolvedEntry} (ok : T.child (.entry (.synthetic label e)) name = .ok found) :
    ∃ children, e = .directory children ∧
      ∃ inner, children.lookup name = some inner ∧ found = .synthetic name inner := by
  obtain ⟨listed, there, hit⟩ := child_ok ok
  cases e with
  | file content mode => cases there
  | symlink target => cases there
  | directory children =>
    simp only [Merged.children, Option.some.injEq] at there
    rw [← there, lookup_syntheticPairs, Option.map_eq_some_iff] at hit
    obtain ⟨inner, member, rfl⟩ := hit
    exact ⟨children, rfl, inner, member, rfl⟩

end Descent

theorem child_root (T : Merged) (name : Bytes) :
    T.child .root name =
      match T.overlay.get name with
      | some e => .ok (.synthetic name e)
      | none =>
        match (T.trees T.root).find? (·.name = name) with
        | some raw => .ok (.tree (.ofRaw raw))
        | none => .error .notFound := by
  simp only [Merged.child, Merged.children, lookup_root]
  cases T.overlay.get name with
  | some e => rfl
  | none => cases (T.trees T.root).find? (·.name = name) <;> rfl

theorem child_of_root {T : Merged} {name : Bytes} {found : ResolvedEntry}
    (ok : T.child .root name = .ok found) :
    (∃ e, T.overlay.get name = some e ∧ found = .synthetic name e) ∨
      T.overlay.get name = none ∧ ∃ raw, (T.trees T.root).find? (·.name = name) = some raw ∧
        found = .tree (.ofRaw raw) := by
  rw [child_root] at ok
  cases shadow : T.overlay.get name with
  | some e =>
    rw [shadow] at ok
    cases ok
    exact Or.inl ⟨e, rfl, rfl⟩
  | none =>
    rw [shadow] at ok
    cases hit : (T.trees T.root).find? (·.name = name) with
    | none => simp [hit] at ok
    | some raw =>
      simp only [hit, Except.ok.injEq] at ok
      exact Or.inr ⟨rfl, raw, rfl, ok.symm⟩

section Resolution
variable {T : Merged} {H : StoreHandle Id}

/-- Reading the tree gives the entries the merged tree has for it. -/
def Readable (T : Merged) (H : StoreHandle Id) (tree : ObjectId) : Prop :=
  H.readTree tree = pure (T.trees tree)

/-- Every directory entry of a readable tree is a readable tree. -/
def Closed (T : Merged) (H : StoreHandle Id) : Prop :=
  ∀ tree, Readable T H tree → ∀ raw ∈ T.trees tree,
    (TreeEntry.ofRaw raw).mode.isDir = true → Readable T H raw.oid

theorem walk_last {tree : ObjectId} (readable : Readable T H tree) (walked name : Bytes) :
    TreeNavigator.walk H tree walked name [] =
      match (T.trees tree).find? (·.name = name) with
      | none => throw (.notFound name walked)
      | some raw => pure (.ofRaw raw) := by
  cases found : (T.trees tree).find? (·.name = name) <;>
    rw [TreeNavigator.walk, readable, adapt_pure, pure_bind, found]

theorem walk_next {tree : ObjectId} (readable : Readable T H tree) {walked name next : Bytes}
    {rest : List Bytes} {raw : RawTreeEntry}
    (found : (T.trees tree).find? (·.name = name) = some raw)
    (dir : (TreeEntry.ofRaw raw).mode.isDir = true) :
    TreeNavigator.walk H tree walked name (next :: rest) =
      TreeNavigator.walk H raw.oid (pushComponent walked name) next rest := by
  rw [TreeNavigator.walk, readable, adapt_pure, pure_bind, found]
  simp only [dir, if_true]
  rfl

/-- After a descent to a directory, a walk ends in that directory's entries. -/
theorem walk_along (closed : Closed T H) {e : TreeEntry} (readable : Readable T H e.oid)
    {front : List Bytes} (name walked : Bytes) {d : Node}
    (reached : T.descend (.entry (.tree e)) front = .ok d) (walkable : d.walkable = true) :
    ∃ inner, d = .entry (.tree inner) ∧ inner.mode = .directory ∧
      ∃ parent, ∀ first rest, front ++ [name] = first :: rest →
        TreeNavigator.walk H e.oid walked first rest =
          match (T.trees inner.oid).find? (·.name = name) with
          | none => throw (.notFound name parent)
          | some raw => pure (.ofRaw raw) := by
  induction front generalizing e walked with
  | nil =>
    cases reached
    refine ⟨e, rfl, EntryMode.isDir_iff.mp walkable, walked, ?_⟩
    intro first rest split
    obtain ⟨rfl, rfl⟩ : name = first ∧ [] = rest := by simpa using split
    exact walk_last readable walked name
  | cons x more ih =>
    obtain ⟨found, here, below⟩ := descend_cons_ok reached
    obtain ⟨-, raw, hit, rfl⟩ := child_of_tree here
    have dir : (TreeEntry.ofRaw raw).mode.isDir = true := descend_walkable below walkable
    have inner := closed _ readable raw (List.mem_of_find?_eq_some hit) dir
    obtain ⟨last, same, dirLast, parent, along⟩ :=
      ih inner (pushComponent walked x) below
    refine ⟨last, same, dirLast, parent, ?_⟩
    intro first rest split
    obtain ⟨rfl, rfl⟩ : x = first ∧ more ++ [name] = rest := by simpa using split
    obtain ⟨next, tail, shape⟩ := List.exists_cons_of_ne_nil (l := more ++ [name]) (by simp)
    rw [shape, walk_next readable hit dir]
    exact along next tail shape

theorem walkSynthetic_along {label : Bytes} {e : SyntheticEntry} {front : List Bytes}
    (name walked : Bytes) {d : Node} (reached : T.descend (.entry (.synthetic label e)) front = .ok d)
    (walkable : d.walkable = true) :
    ∃ inner children, d = .entry (.synthetic inner (.directory children)) ∧
      ∃ parent, ∀ first rest, front ++ [name] = first :: rest →
        walkSynthetic e walked first rest =
          match children.lookup name with
          | none => .error (.notFound name parent)
          | some found => .ok (.synthetic name found) := by
  induction front generalizing label e walked with
  | nil =>
    cases reached
    cases e with
    | file content mode => cases walkable
    | symlink target => cases walkable
    | directory children =>
      refine ⟨label, children, rfl, walked, ?_⟩
      intro first rest split
      obtain ⟨rfl, rfl⟩ : name = first ∧ [] = rest := by simpa using split
      rfl
  | cons x more ih =>
    obtain ⟨found, here, below⟩ := descend_cons_ok reached
    obtain ⟨children, rfl, inner, hit, rfl⟩ := child_of_synthetic here
    obtain ⟨last, listed, same, parent, along⟩ := ih (walked ++ slash :: x) below
    refine ⟨last, listed, same, parent, ?_⟩
    intro first rest split
    obtain ⟨rfl, rfl⟩ : x = first ∧ more ++ [name] = rest := by simpa using split
    obtain ⟨next, tail, shape⟩ := List.exists_cons_of_ne_nil (l := more ++ [name]) (by simp)
    rw [shape]
    simp only [walkSynthetic, hit]
    exact along next tail shape

theorem child_error {node : Node} (walkable : node.walkable = true) {name : Bytes} {e : FsError}
    (failed : T.child node name = .error e) : e = .notFound := by
  have dir : (T.children node).isSome := by
    rcases node with _ | ⟨entry | ⟨label, content | children | target⟩⟩
    · rfl
    · have mode : entry.mode = .directory := EntryMode.isDir_iff.mp walkable
      simp [Merged.children, mode]
    · cases walkable
    · rfl
    · cases walkable
  obtain ⟨listed, there⟩ := Option.isSome_iff_exists.mp dir
  simp only [Merged.child, there] at failed
  split at failed
  · cases failed
    rfl
  · cases failed

theorem split_first {x : Bytes} {rest : List Bytes} (proper : ∀ c ∈ x :: rest, ProperName c) :
    (split (trim (join (x :: rest)))).headD [] = x ∧ trim (join (x :: rest)) ≠ [] ∧
      trim ((trim (join (x :: rest))).drop x.length) = join rest := by
  have components : ∀ c ∈ x :: rest, Component c := fun c among => (proper c among).toComponent
  have below : ∀ c ∈ rest, Component c := fun c among => components c (List.mem_cons_of_mem _ among)
  rw [trim_join components, split_join components (by simp)]
  refine ⟨rfl, join_ne_nil components (by simp), ?_⟩
  cases rest with
  | nil => simp [join_singleton, join_nil, trim]
  | cons b tail =>
    rw [join_cons_cons, List.drop_left, trim_slash_join below]

theorem resolve_below {x : Bytes} {e : SyntheticEntry} {rest tail : List Bytes} {first : Bytes}
    (shape : rest = first :: tail) (proper : ∀ c ∈ x :: rest, ProperName c) :
    resolveInSynthetic x e ((trim (join (x :: rest))).drop x.length) =
      walkSynthetic e x first tail := by
  have below : ∀ c ∈ rest, Component c := fun c among =>
    (proper c (List.mem_cons_of_mem _ among)).toComponent
  have some_ : rest ≠ [] := by simp [shape]
  have kept : rest.filter (· ≠ []) = rest :=
    List.filter_eq_self.mpr fun c among => by simpa using (below c among).nonempty
  unfold resolveInSynthetic
  simp only [(split_first proper).2.2, join_ne_nil below some_, if_false,
    split_join below some_, kept]
  rw [shape]

theorem navigator_lookup {x : Bytes} {rest : List Bytes} (proper : ∀ c ∈ x :: rest, ProperName c)
    (tree : ObjectId) :
    TreeNavigator.lookup H tree (join (x :: rest)) = TreeNavigator.walk H tree [] x rest := by
  unfold TreeNavigator.lookup
  rw [splitPath_join proper]
  rfl

/-- Resolving the whole path again from the root is one step from its directory. -/
theorem lookup_child {projection : Projection} (rooted : projection.rootTree H = pure T.root)
    (readable : Readable T H T.root) (closed : Closed T H) {path : List Bytes} {name : Bytes}
    (proper : ∀ c ∈ path ++ [name], ProperName c) {d : Node}
    (reached : T.descend .root path = .ok d) (walkable : d.walkable = true) :
    ∃ parent, projection.lookup H T.overlay (join (path ++ [name])) =
      match T.child d name with
      | .ok found => pure found
      | .error _ => throw (.notFound name parent) := by
  obtain ⟨x, rest, shape⟩ := List.exists_cons_of_ne_nil (l := path ++ [name]) (by simp)
  rw [shape] at proper ⊢
  obtain ⟨first, some_, -⟩ := split_first proper
  unfold Projection.lookup Projection.shadowing Projection.firstOf
  simp only [first, some_, if_false, rooted, pure_bind, navigator_lookup proper]
  cases path with
  | nil =>
    cases reached
    obtain ⟨rfl, rfl⟩ : name = x ∧ [] = rest := by simpa using shape
    rw [child_root]
    cases T.overlay.get name with
    | some e =>
      refine ⟨[], ?_⟩
      have trimmed := (split_first proper).2.2
      rw [join_nil] at trimmed
      simp [resolveInSynthetic, trimmed]
      rfl
    | none =>
      refine ⟨[], ?_⟩
      simp only [walk_last readable]
      cases (T.trees T.root).find? (·.name = name) <;> rfl
  | cons y more =>
    obtain ⟨rfl, rfl⟩ : y = x ∧ more ++ [name] = rest := by simpa using shape
    obtain ⟨next, tail, split⟩ := List.exists_cons_of_ne_nil (l := more ++ [name]) (by simp)
    obtain ⟨found, here, below⟩ := descend_cons_ok reached
    rcases child_of_root here with ⟨e, shadow, rfl⟩ | ⟨clear, raw, hit, rfl⟩
    · obtain ⟨inner, children, rfl, parent, along⟩ :=
        walkSynthetic_along name y below walkable
      refine ⟨parent, ?_⟩
      simp only [shadow]
      rw [resolve_below split proper, along next tail split]
      simp only [Merged.child, Merged.children, lookup_syntheticPairs]
      cases children.lookup name <;> rfl
    · have dir : (TreeEntry.ofRaw raw).mode.isDir = true := descend_walkable below walkable
      have inner := closed _ readable raw (List.mem_of_find?_eq_some hit) dir
      obtain ⟨last, rfl, dirLast, parent, along⟩ :=
        walk_along closed inner name (pushComponent [] y) below walkable
      refine ⟨parent, ?_⟩
      have walked : TreeNavigator.walk H raw.oid (pushComponent [] y) next tail = _ :=
        along next tail split
      simp only [clear, split, walk_next readable hit dir, walked, Merged.child, Merged.children,
        dirLast, lookup_treePairs]
      cases (T.trees last.oid).find? (·.name = name) <;> rfl

theorem readRoot_lists {projection : Projection} (rooted : projection.rootTree H = pure T.root)
    (readable : Readable T H T.root) :
    ∃ listed, T.children .root = some listed ∧
      projection.readRoot H T.overlay = pure listed := by
  refine ⟨_, rfl, ?_⟩
  unfold Projection.readRoot TreeNavigator.list
  rw [rooted, pure_bind, readable, pure_bind, adapt_pure, pure_bind]
  simp only [syntheticPairs, treePairs, List.filter_map, List.map_map]
  rfl

end Resolution
end ProjgitMerged
