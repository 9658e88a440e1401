import Projgit.Lib.SlashPath
import Projgit.Lib.Stateful
import Projgit.ObjectStore

/-!
Path resolution: `TreeNavigator` (`tree.rs`), `RootOverlay` (`overlay.rs`) and
`Projection` (`projection.rs`). Everything here reads through a `StoreHandle`, so it
runs over the real store and over the cacheless one. Virtual paths are Rust strings,
kept as their bytes.
-/
namespace ProjgitProjection
open Utf8Bytes ProjgitStore SlashPath Stateful

inductive EntryMode where
  | regularFile | executableFile | symlink | directory | gitlink
  deriving DecidableEq, Repr

def EntryMode.fromRaw (modeRaw : UInt16) : EntryMode :=
  if modeRaw = 0o100644 then .regularFile
  else if modeRaw = 0o100755 then .executableFile
  else if modeRaw = 0o120000 then .symlink
  else if modeRaw = 0o040000 then .directory
  else if modeRaw = 0o160000 then .gitlink
  else .regularFile

def EntryMode.isDir : EntryMode → Bool
  | .directory => true
  | _ => false

theorem EntryMode.isDir_iff {mode : EntryMode} : mode.isDir = true ↔ mode = .directory := by
  cases mode <;> simp [EntryMode.isDir]

structure TreeEntry where
  name : Bytes
  mode : EntryMode
  modeRaw : UInt16
  oid : ObjectId
  deriving DecidableEq

def TreeEntry.ofRaw (raw : RawTreeEntry) : TreeEntry :=
  ⟨raw.name, .fromRaw raw.modeRaw, raw.modeRaw, raw.oid⟩

/-- A `BTreeMap` of children is a list of pairs in key order. -/
inductive SyntheticEntry where
  | file : Bytes → UInt16 → SyntheticEntry
  | directory : List (Bytes × SyntheticEntry) → SyntheticEntry
  | symlink : Bytes → SyntheticEntry

/-- Strictly ascending keys, all the way down. -/
inductive SyntheticEntry.Sorted : SyntheticEntry → Prop where
  | file (content : Bytes) (modeRaw : UInt16) : Sorted (.file content modeRaw)
  | symlink (target : Bytes) : Sorted (.symlink target)
  | directory {children : List (Bytes × SyntheticEntry)}
      (keys : (children.map Prod.fst).Pairwise (· < ·))
      (each : ∀ child ∈ children, Sorted child.2) : Sorted (.directory children)

structure RootOverlay where
  entries : List (Bytes × SyntheticEntry)
  sorted : (SyntheticEntry.directory entries).Sorted

def RootOverlay.new : RootOverlay := ⟨[], .directory .nil (by simp)⟩

def RootOverlay.get (overlay : RootOverlay) (name : Bytes) : Option SyntheticEntry :=
  overlay.entries.lookup name

def RootOverlay.wouldCollide (overlay : RootOverlay) (name : Bytes) : Bool :=
  (overlay.get name).isSome

inductive ProjectionError where
  | notFound : Bytes → Bytes → ProjectionError
  | notADirectory : Bytes → Bytes → ProjectionError
  | invalidPath : Bytes → String → ProjectionError
  | store : ObjectStoreError → ProjectionError

inductive ResolvedEntry where
  | tree : TreeEntry → ResolvedEntry
  | synthetic : Bytes → SyntheticEntry → ResolvedEntry

inductive Projection where
  | ref : Bytes → Projection
  | commit : ObjectId → Projection
  | subtree : ObjectId → Bytes → Projection

def dot : Bytes := [46]
def dotdot : Bytes := [46, 46]

/-- The non-empty components, or the refusal of `.`, `..` and NUL. -/
def splitPath (path : Bytes) : Except ProjectionError (List Bytes) :=
  if 0 ∈ path then .error (.invalidPath path "null byte in path")
  else
    let components := (split path).filter (· ≠ [])
    if dot ∈ components ∨ dotdot ∈ components then
      .error (.invalidPath path "'.' and '..' components are not allowed")
    else .ok components

/-- `walked` grows by a separator except at the start. -/
def pushComponent (walked component : Bytes) : Bytes :=
  if walked = [] then component else walked ++ slash :: component

universe v
variable {m : Type → Type v} [Monad m]

namespace TreeNavigator
variable (store : StoreHandle m)

def list (tree : ObjectId) : ExceptT ObjectStoreError m (List TreeEntry) := do
  return (← store.readTree tree).map .ofRaw

/-- The loop of `lookup`, at `component` with `rest` still to come. -/
def walk (tree : ObjectId) (walked component : Bytes) (rest : List Bytes) :
    ExceptT ProjectionError m TreeEntry := do
  let entries ← ExceptT.adapt .store (store.readTree tree)
  match entries.find? (·.name = component) with
  | none => throw (.notFound component walked)
  | some raw =>
    let entry := TreeEntry.ofRaw raw
    match rest with
    | [] => return entry
    | next :: rest =>
      if entry.mode.isDir then
        walk entry.oid (pushComponent walked component) next rest
      else throw (.notADirectory component walked)

def lookup (tree : ObjectId) (path : Bytes) : ExceptT ProjectionError m TreeEntry := do
  match ← ExceptT.mk (pure (splitPath path)) with
  | [] => return ⟨[], .directory, 0o040000, tree⟩
  | first :: rest => walk store tree [] first rest

end TreeNavigator

def walkSynthetic (current : SyntheticEntry) (walked component : Bytes) :
    List Bytes → Except ProjectionError ResolvedEntry
  | [] =>
    match current with
    | .directory children =>
      match children.lookup component with
      | none => .error (.notFound component walked)
      | some child => .ok (.synthetic component child)
    | _ => .error (.notADirectory component walked)
  | next :: rest =>
    match current with
    | .directory children =>
      match children.lookup component with
      | none => .error (.notFound component walked)
      | some child => walkSynthetic child (walked ++ slash :: component) next rest
    | _ => .error (.notADirectory component walked)

def resolveInSynthetic (head : Bytes) (entry : SyntheticEntry) (rest : Bytes) :
    Except ProjectionError ResolvedEntry :=
  let trimmed := trim rest
  if trimmed = [] then .ok (.synthetic head entry)
  else match (split trimmed).filter (· ≠ []) with
    | [] => .ok (.synthetic head entry)
    | first :: more => walkSynthetic entry head first more

namespace Projection

def resolveCommit (store : StoreHandle m) : Projection → ExceptT ProjectionError m ObjectId
  | .ref name => ExceptT.adapt .store (store.resolveRef name)
  | .commit oid => return oid
  | .subtree oid _ => return oid

def rootTree (store : StoreHandle m) : Projection → ExceptT ProjectionError m ObjectId
  | .ref name => do
    let oid ← ExceptT.adapt .store (store.resolveRef name)
    ExceptT.adapt .store (store.commitTree oid)
  | .commit oid => ExceptT.adapt .store (store.commitTree oid)
  | .subtree oid path => do
    let tree ← ExceptT.adapt .store (store.commitTree oid)
    let entry ← TreeNavigator.lookup store tree path
    if entry.mode.isDir then return entry.oid
    else throw (.notADirectory (((split path).reverse.find? (· ≠ [])).getD [])
      (join (split path).dropLast))

def firstOf (path : Bytes) : Bytes := (split (trim path)).headD []

def shadowing (overlay : RootOverlay) (path : Bytes) : Option SyntheticEntry :=
  if trim path = [] then none else overlay.get (firstOf path)

def lookup (projection : Projection) (store : StoreHandle m) (overlay : RootOverlay)
    (path : Bytes) : ExceptT ProjectionError m ResolvedEntry :=
  match shadowing overlay path with
  | some entry => ExceptT.mk (pure (resolveInSynthetic (firstOf path) entry
      ((trim path).drop (firstOf path).length)))
  | none => do
    let root ← projection.rootTree store
    let entry ← TreeNavigator.lookup store root path
    return .tree entry

def readRoot (projection : Projection) (store : StoreHandle m) (overlay : RootOverlay) :
    ExceptT ProjectionError m (List (Bytes × ResolvedEntry)) := do
  let root ← projection.rootTree store
  let synthetic := overlay.entries.map fun named => (named.1, .synthetic named.1 named.2)
  let listed ← ExceptT.adapt .store (TreeNavigator.list store root)
  let real := listed.filter fun entry => !overlay.wouldCollide entry.name
  return synthetic ++ real.map fun entry => (entry.name, .tree entry)

end Projection

section Simulation
variable {σ : Type} {ok : σ → Prop} {R : StoreHandle (StateM σ)} {H : StoreHandle Id}

/-- The reads that path resolution makes answer as a pure store's do. -/
structure Simulates (ok : σ → Prop) (R : StoreHandle (StateM σ)) (H : StoreHandle Id) : Prop where
  readTree : ∀ oid, Returns ok (R.readTree oid) (H.readTree oid)
  commitTree : ∀ oid, Returns ok (R.commitTree oid) (H.commitTree oid)
  resolveRef : ∀ name, Returns ok (R.resolveRef name) (H.resolveRef name)

theorem returns_lift (v : Except ε α) :
    Returns ok (ExceptT.mk (pure v)) (ExceptT.mk (pure v)) := fun _ holds => ⟨rfl, holds⟩

theorem walk_returns (simulates : Simulates ok R H) (tree : ObjectId) (walked component : Bytes)
    (rest : List Bytes) :
    Returns ok (TreeNavigator.walk R tree walked component rest)
      (TreeNavigator.walk H tree walked component rest) := by
  induction rest generalizing tree walked component with
  | nil =>
    unfold TreeNavigator.walk
    refine returns_bind (returns_adapt _ (simulates.readTree tree)) fun entries _ => ?_
    cases entries.find? (·.name = component) with
    | none => exact returns_throw _
    | some raw => exact returns_pure _
  | cons next rest ih =>
    unfold TreeNavigator.walk
    refine returns_bind (returns_adapt _ (simulates.readTree tree)) fun entries _ => ?_
    cases entries.find? (·.name = component) with
    | none => exact returns_throw _
    | some raw =>
      by_cases dir : (TreeEntry.ofRaw raw).mode.isDir = true
      · simp only [dir, if_true]
        exact ih _ _ _
      · simp only [dir, Bool.false_eq_true, if_false]
        exact returns_throw _

theorem navigator_returns (simulates : Simulates ok R H) (tree : ObjectId) (path : Bytes) :
    Returns ok (TreeNavigator.lookup R tree path) (TreeNavigator.lookup H tree path) := by
  unfold TreeNavigator.lookup
  refine returns_bind (returns_lift (splitPath path)) fun components _ => ?_
  cases components with
  | nil => exact returns_pure _
  | cons first rest => exact walk_returns simulates tree [] first rest

theorem rootTree_returns (simulates : Simulates ok R H) (projection : Projection) :
    Returns ok (projection.rootTree R) (projection.rootTree H) := by
  cases projection with
  | ref name =>
    exact returns_bind (returns_adapt _ (simulates.resolveRef name)) fun oid _ =>
      returns_adapt _ (simulates.commitTree oid)
  | commit oid => exact returns_adapt _ (simulates.commitTree oid)
  | subtree oid path =>
    refine returns_bind (returns_adapt _ (simulates.commitTree oid)) fun tree _ => ?_
    refine returns_bind (navigator_returns simulates tree path) fun entry _ => ?_
    by_cases dir : entry.mode.isDir = true
    · simp only [dir, if_true]
      exact returns_pure _
    · simp only [dir, Bool.false_eq_true, if_false]
      exact returns_throw _

theorem lookup_returns (simulates : Simulates ok R H) (projection : Projection)
    (overlay : RootOverlay) (path : Bytes) :
    Returns ok (projection.lookup R overlay path) (projection.lookup H overlay path) := by
  unfold Projection.lookup
  cases Projection.shadowing overlay path with
  | some entry => exact returns_lift _
  | none =>
    refine returns_bind (rootTree_returns simulates projection) fun root _ => ?_
    exact returns_bind (navigator_returns simulates root path) fun entry _ => returns_pure _

theorem readRoot_returns (simulates : Simulates ok R H) (projection : Projection)
    (overlay : RootOverlay) :
    Returns ok (projection.readRoot R overlay) (projection.readRoot H overlay) := by
  unfold Projection.readRoot TreeNavigator.list
  refine returns_bind (rootTree_returns simulates projection) fun root _ => ?_
  refine returns_bind (returns_adapt _ ?_) fun listed _ => returns_pure _
  exact returns_bind (simulates.readTree root) fun raw _ => returns_pure _

end Simulation
end ProjgitProjection
