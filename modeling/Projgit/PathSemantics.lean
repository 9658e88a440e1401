import Projgit.Lib.Descent
import Projgit.MergedMount

/-!
One meaning of paths for the two walkers behind `Projection::lookup`. `descent` follows
the components of the path through the merged root; the walkers, written here once more
with the loops and the `unreachable!` of the source, do nothing else.
-/
namespace ProjgitProjection
open Utf8Bytes ProjgitStore SlashPath Stateful Descent ProjgitServing

/-- How a call can fail: with an error, or by reaching an `unreachable!`. -/
inductive Halt where
  | error : ProjectionError → Halt
  | unreachable : Halt

section Loops
universe v
variable {m : Type → Type v} [Monad m]

def TreeNavigator.loop (store : StoreHandle m) (total : Nat) (tree : ObjectId) (walked : Bytes) :
    List (Bytes × Nat) → ExceptT Halt m TreeEntry
  | [] => throw .unreachable
  | (component, i) :: rest => do
    let entries ← ExceptT.adapt .error (ExceptT.adapt .store (store.readTree tree))
    match entries.find? (·.name = component) with
    | none => throw (.error (.notFound component walked))
    | some raw =>
      let entry := TreeEntry.ofRaw raw
      if i + 1 = total then return entry
      else if !entry.mode.isDir then throw (.error (.notADirectory component walked))
      else loop store total entry.oid (pushComponent walked component) rest

def TreeNavigator.lookupHalting (store : StoreHandle m) (tree : ObjectId) (path : Bytes) :
    ExceptT Halt m TreeEntry := do
  let components ← ExceptT.adapt .error (ExceptT.mk (pure (splitPath path)))
  if components = [] then return ⟨[], .directory, 0o040000, tree⟩
  else TreeNavigator.loop store components.length tree [] components.zipIdx

def syntheticLoop (total : Nat) (current : SyntheticEntry) (walked : Bytes) :
    List (Bytes × Nat) → Except Halt ResolvedEntry
  | [] => .error .unreachable
  | (component, i) :: rest =>
    match current with
    | .directory children =>
      match children.lookup component with
      | none => .error (.error (.notFound component walked))
      | some child =>
        if i + 1 = total then .ok (.synthetic component child)
        else syntheticLoop total child (walked ++ slash :: component) rest
    | _ => .error (.error (.notADirectory component walked))

def resolveHalting (head : Bytes) (entry : SyntheticEntry) (rest : Bytes) :
    Except Halt ResolvedEntry :=
  let trimmed := trim rest
  if trimmed = [] then .ok (.synthetic head entry)
  else
    let components := (split trimmed).filter (· ≠ [])
    syntheticLoop components.length entry head components.zipIdx

def Projection.rootTreeHalting (store : StoreHandle m) : Projection → ExceptT Halt m ObjectId
  | .ref name => do
    let oid ← ExceptT.adapt .error (ExceptT.adapt .store (store.resolveRef name))
    ExceptT.adapt .error (ExceptT.adapt .store (store.commitTree oid))
  | .commit oid => ExceptT.adapt .error (ExceptT.adapt .store (store.commitTree oid))
  | .subtree oid path => do
    let tree ← ExceptT.adapt .error (ExceptT.adapt .store (store.commitTree oid))
    let entry ← TreeNavigator.lookupHalting store tree path
    if entry.mode.isDir then return entry.oid
    else throw (.error (.notADirectory (((split path).reverse.find? (· ≠ [])).getD [])
      (join (split path).dropLast)))

def Projection.lookupHalting (projection : Projection) (store : StoreHandle m)
    (overlay : RootOverlay) (path : Bytes) : ExceptT Halt m ResolvedEntry :=
  match Projection.shadowing overlay path with
  | some entry => ExceptT.mk (pure (resolveHalting (firstOf path) entry
      ((trim path).drop (firstOf path).length)))
  | none => do
    let root ← projection.rootTreeHalting store
    let entry ← TreeNavigator.lookupHalting store root path
    return .tree entry

end Loops

section Unreachable
universe v
variable {m : Type → Type v} [Monad m] [LawfulMonad m] {store : StoreHandle m}

theorem loop_eq (tree : ObjectId) (walked component : Bytes) (rest : List Bytes) {i total : Nat}
    (last : i + 1 + rest.length = total) :
    TreeNavigator.loop store total tree walked ((component :: rest).zipIdx i) =
      ExceptT.adapt .error (TreeNavigator.walk store tree walked component rest) := by
  induction rest generalizing tree walked component i with
  | nil =>
    rw [List.length_nil, Nat.add_zero] at last
    unfold TreeNavigator.walk
    simp only [List.zipIdx_cons, TreeNavigator.loop, adapt_bind, last, if_true]
    refine bind_congr fun entries => ?_
    cases entries.find? (·.name = component) with
    | none => exact (adapt_throw _ _).symm
    | some raw => exact (adapt_return _ _).symm
  | cons next rest ih =>
    rw [List.length_cons] at last
    have more : i + 1 ≠ total := by omega
    unfold TreeNavigator.walk
    rw [List.zipIdx_cons]
    simp only [TreeNavigator.loop, adapt_bind, more, if_false]
    refine bind_congr fun entries => ?_
    cases entries.find? (·.name = component) with
    | none => exact (adapt_throw _ _).symm
    | some raw =>
      by_cases dir : (TreeEntry.ofRaw raw).mode.isDir = true
      · simp only [dir, Bool.not_true, Bool.false_eq_true, if_false, if_true]
        exact ih _ _ _ (by omega)
      · simp only [dir, Bool.not_false, if_true, Bool.false_eq_true, if_false]
        exact (adapt_throw _ _).symm

theorem navigator_halting (tree : ObjectId) (path : Bytes) :
    TreeNavigator.lookupHalting store tree path =
      ExceptT.adapt .error (TreeNavigator.lookup store tree path) := by
  unfold TreeNavigator.lookupHalting TreeNavigator.lookup
  rw [adapt_bind]
  refine bind_congr fun components => ?_
  cases components with
  | nil => exact (adapt_return _ _).symm
  | cons first rest =>
    simp only [reduceCtorEq, if_false]
    exact loop_eq tree [] first rest (by simp [Nat.add_comm])

theorem syntheticLoop_eq (current : SyntheticEntry) (walked component : Bytes)
    (rest : List Bytes) {i total : Nat} (last : i + 1 + rest.length = total) :
    syntheticLoop total current walked ((component :: rest).zipIdx i) =
      (walkSynthetic current walked component rest).mapError .error := by
  induction rest generalizing current walked component i with
  | nil =>
    rw [List.length_nil, Nat.add_zero] at last
    cases current with
    | file content mode => rfl
    | symlink target => rfl
    | directory children =>
      simp only [List.zipIdx_cons, syntheticLoop, walkSynthetic, last, if_true]
      cases children.lookup component <;> rfl
  | cons next rest ih =>
    rw [List.length_cons] at last
    have more : i + 1 ≠ total := by omega
    cases current with
    | file content mode => rfl
    | symlink target => rfl
    | directory children =>
      rw [List.zipIdx_cons]
      simp only [syntheticLoop, walkSynthetic, more, if_false]
      cases children.lookup component with
      | none => rfl
      | some child => exact ih child _ next (by omega)

theorem resolve_halting (head : Bytes) (entry : SyntheticEntry) (rest : Bytes) :
    resolveHalting head entry rest = (resolveInSynthetic head entry rest).mapError .error := by
  unfold resolveHalting resolveInSynthetic
  by_cases empty : trim rest = []
  · simp only [empty, if_true]
    rfl
  · simp only [empty, if_false]
    cases shape : (split (trim rest)).filter (· ≠ []) with
    | nil =>
      have none_ : components rest = [] := by rw [← components_trim]; exact shape
      exact absurd (components_eq_nil.mp none_) empty
    | cons first more => exact syntheticLoop_eq entry head first more (by simp [Nat.add_comm])

theorem rootTree_halting (projection : Projection) :
    projection.rootTreeHalting store = ExceptT.adapt .error (projection.rootTree store) := by
  cases projection with
  | ref name => exact (adapt_bind _ _ _).symm
  | commit oid => rfl
  | subtree oid path =>
    unfold Projection.rootTreeHalting Projection.rootTree
    simp only [adapt_bind, navigator_halting]
    refine bind_congr fun tree => bind_congr fun entry => ?_
    by_cases dir : entry.mode.isDir = true
    · simp only [dir, if_true]
      exact (adapt_return _ _).symm
    · simp only [dir, Bool.false_eq_true, if_false]
      exact (adapt_throw _ _).symm

/-- No `unreachable!` is ever reached: the loops end where the walkers do. -/
theorem lookup_halting (projection : Projection) (overlay : RootOverlay) (path : Bytes) :
    projection.lookupHalting store overlay path =
      ExceptT.adapt .error (projection.lookup store overlay path) := by
  unfold Projection.lookupHalting Projection.lookup
  cases Projection.shadowing overlay path with
  | some entry =>
    simp only [resolve_halting]
    exact (adapt_lift _ _).symm
  | none =>
    simp only [adapt_bind, rootTree_halting, navigator_halting]
    refine bind_congr fun root => bind_congr fun entry => ?_
    exact (adapt_return _ _).symm

end Unreachable

def rootEntry (tree : ObjectId) : TreeEntry := ⟨[], .directory, 0o040000, tree⟩

/-- Below the root, a git tree lists git entries and a synthetic directory its own. -/
def entriesIn (trees : ObjectId → List RawTreeEntry) :
    ResolvedEntry → Option (Bytes → Option ResolvedEntry)
  | .tree e =>
    if e.mode.isDir then
      some fun name => ((trees e.oid).find? (·.name = name)).map fun raw => .tree (.ofRaw raw)
    else none
  | .synthetic _ (.directory children) =>
    some fun name => (children.lookup name).map fun child => .synthetic name child
  | .synthetic _ _ => none

/-- In the git tree, what is not a directory is itself the failing component. -/
def inTree : Stop Bytes → ProjectionError
  | .absent walked name => .notFound name (join walked)
  | .blocked walked _ => .notADirectory (walked.getLastD []) (join walked.dropLast)

/-- In the overlay, the component asked of it is. -/
def inSynthetic : Stop Bytes → ProjectionError
  | .absent walked name => .notFound name (join walked)
  | .blocked walked name => .notADirectory name (join walked)

/-- What a path resolves to: its components, followed from the merged root. -/
def descent (overlay : RootOverlay) (trees : ObjectId → List RawTreeEntry) (root : ObjectId)
    (path : Bytes) : Except ProjectionError ResolvedEntry :=
  match components path with
  | [] => .ok (.tree (rootEntry root))
  | first :: rest =>
    match overlay.get first with
    | some entry =>
      (follow (entriesIn trees) [first] (.synthetic first entry) rest).mapError inSynthetic
    | none =>
      if 0 ∈ path then .error (.invalidPath path "null byte in path")
      else if ∃ c ∈ first :: rest, c = dot ∨ c = dotdot then
        .error (.invalidPath path "'.' and '..' components are not allowed")
      else (follow (entriesIn trees) [] (.tree (rootEntry root)) (first :: rest)).mapError inTree

section Following
variable {H : StoreHandle Id} {trees : ObjectId → List RawTreeEntry}

def Lists (H : StoreHandle Id) (trees : ObjectId → List RawTreeEntry) (node : ResolvedEntry) :
    Prop :=
  ∀ e, node = .tree e → e.mode.isDir = true → H.readTree e.oid = pure (trees e.oid)

theorem pushComponent_join {walked : List Bytes} (proper : ∀ c ∈ walked, Component c)
    (name : Bytes) : pushComponent (join walked) name = join (walked ++ [name]) := by
  unfold pushComponent
  by_cases start : walked = []
  · simp [start, join_nil, join_singleton]
  · rw [if_neg (join_ne_nil proper start), join_snoc start]

theorem entriesIn_tree {e : TreeEntry} (dir : e.mode.isDir = true) :
    entriesIn trees (.tree e) = some fun name =>
      ((trees e.oid).find? (·.name = name)).map fun raw => .tree (.ofRaw raw) := by
  simp only [entriesIn, dir, if_true]

theorem entriesIn_leaf {e : TreeEntry} (leaf : ¬ e.mode.isDir = true) :
    entriesIn trees (.tree e) = none := by
  simp only [entriesIn, leaf, Bool.false_eq_true, if_false]

theorem walk_absent {e : TreeEntry} (dir : e.mode.isDir = true) {walked : List Bytes}
    {name : Bytes} {rest : List Bytes} (readable : H.readTree e.oid = pure (trees e.oid))
    (found : (trees e.oid).find? (·.name = name) = none) :
    (TreeNavigator.walk H e.oid (join walked) name rest >>= fun found =>
        pure (ResolvedEntry.tree found)) =
      ExceptT.mk (pure ((follow (entriesIn trees) walked (.tree e) (name :: rest)).mapError
        inTree)) := by
  rw [TreeNavigator.walk.eq_def, readable, adapt_pure, pure_bind, found,
    follow_absent (entriesIn_tree dir) (by rw [found]; rfl)]
  rfl

theorem walk_follows {e : TreeEntry} (dir : e.mode.isDir = true) {walked : List Bytes}
    {name : Bytes} {rest : List Bytes} (proper : ∀ c ∈ walked ++ name :: rest, Component c)
    (asked : Asked (entriesIn trees) (Lists H trees) (.tree e) (name :: rest)) :
    (TreeNavigator.walk H e.oid (join walked) name rest >>= fun found =>
        pure (ResolvedEntry.tree found)) =
      ExceptT.mk (pure ((follow (entriesIn trees) walked (.tree e) (name :: rest)).mapError
        inTree)) := by
  have directory : entriesIn trees (.tree e) = _ := entriesIn_tree dir
  induction rest generalizing e walked name with
  | nil =>
    have readable := asked.1 e rfl dir
    cases found : (trees e.oid).find? (·.name = name) with
    | none => exact walk_absent dir readable found
    | some raw =>
      rw [TreeNavigator.walk, readable, adapt_pure, pure_bind, found,
        follow_child directory (by rw [found]; rfl)]
      rfl
  | cons next rest ih =>
    have readable := asked.1 e rfl dir
    cases found : (trees e.oid).find? (·.name = name) with
    | none => exact walk_absent dir readable found
    | some raw =>
      have child : ((trees e.oid).find? (·.name = name)).map
          (fun raw => ResolvedEntry.tree (.ofRaw raw)) = some (.tree (.ofRaw raw)) := by
        rw [found]
        rfl
      rw [TreeNavigator.walk, readable, adapt_pure, pure_bind, found,
        follow_child directory child]
      by_cases inner : (TreeEntry.ofRaw raw).mode.isDir = true
      · have behind : ∀ c ∈ walked, Component c := fun c among => proper c (by simp [among])
        simp only [inner, if_true, pushComponent_join behind]
        refine ih inner ?_ (asked.2 _ _ directory child) (entriesIn_tree inner)
        simpa using proper
      · rw [follow_blocked (entriesIn_leaf inner)]
        simp only [inner, Bool.false_eq_true, if_false]
        simp only [Except.mapError, inTree, List.getLastD_concat, List.dropLast_concat]
        rfl

theorem walkSynthetic_follows (trees : ObjectId → List RawTreeEntry) (label : Bytes)
    (entry : SyntheticEntry) {walked : List Bytes}
    (some_ : walked ≠ []) (name : Bytes) (rest : List Bytes) :
    walkSynthetic entry (join walked) name rest =
      (follow (entriesIn trees) walked (.synthetic label entry) (name :: rest)).mapError
        inSynthetic := by
  induction rest generalizing label entry walked name with
  | nil =>
    cases entry with
    | file content mode => rfl
    | symlink target => rfl
    | directory children =>
      cases found : children.lookup name <;>
        simp only [walkSynthetic, follow, entriesIn, found, Option.map] <;> rfl
  | cons next rest ih =>
    cases entry with
    | file content mode => rfl
    | symlink target => rfl
    | directory children =>
      have directory : entriesIn trees (.synthetic label (.directory children)) =
        some fun name => (children.lookup name).map fun child => .synthetic name child := rfl
      cases found : children.lookup name with
      | none =>
        rw [follow_absent directory (by rw [found]; rfl)]
        simp only [walkSynthetic, found]
        rfl
      | some child =>
        have next_ : (children.lookup name).map (fun child => ResolvedEntry.synthetic name child) =
            some (.synthetic name child) := by rw [found]; rfl
        rw [follow_child directory next_]
        simp only [walkSynthetic, found, ← join_snoc some_]
        exact ih name child (by simp) next

theorem resolve_follows (trees : ObjectId → List RawTreeEntry) (head : Bytes)
    (entry : SyntheticEntry) (rest : Bytes) :
    resolveInSynthetic head entry rest =
      (follow (entriesIn trees) [head] (.synthetic head entry) (components rest)).mapError
        inSynthetic := by
  unfold resolveInSynthetic
  by_cases done : trim rest = []
  · simp only [done, if_true, components_eq_nil.mpr done]
    rfl
  · simp only [done, if_false]
    have same : (split (trim rest)).filter (· ≠ []) = components rest := components_trim rest
    rw [same]
    cases shape : components rest with
    | nil => exact absurd (components_eq_nil.mp shape) done
    | cons first more =>
      have along := walkSynthetic_follows trees head entry (List.cons_ne_nil head []) first more
      rwa [join_singleton] at along

theorem shadowing_nil {path : Bytes} (overlay : RootOverlay) (empty : components path = []) :
    Projection.shadowing overlay path = none := if_pos (components_eq_nil.mp empty)

theorem firstOf_components {path first : Bytes} {rest : List Bytes}
    (shape : components path = first :: rest) :
    trim path ≠ [] ∧ Projection.firstOf path = first ∧
      components ((trim path).drop first.length) = rest := by
  have some_ : trim path ≠ [] := fun empty => by simp [components_eq_nil.mpr empty] at shape
  obtain ⟨head, behind⟩ := List.cons.inj ((components_trim_head some_).symm.trans shape)
  exact ⟨some_, head, by rw [← head]; exact behind⟩

theorem shadowing_cons {path first : Bytes} {rest : List Bytes} (overlay : RootOverlay)
    (shape : components path = first :: rest) :
    Projection.shadowing overlay path = overlay.get first := by
  obtain ⟨some_, head, -⟩ := firstOf_components shape
  rw [Projection.shadowing, if_neg some_, head]

theorem splitPath_empty {path : Bytes} (empty : components path = []) :
    splitPath path = .ok [] := by
  have clean : 0 ∉ path := by
    intro member
    obtain ⟨c, among, -⟩ := exists_component member (by decide)
    rw [empty] at among
    cases among
  have kept : (split path).filter (· ≠ []) = [] := empty
  rw [splitPath, if_neg clean, kept, if_neg (by simp)]

theorem dotted_iff {cs : List Bytes} :
    (∃ c ∈ cs, c = dot ∨ c = dotdot) ↔ dot ∈ cs ∨ dotdot ∈ cs := by
  simp only [and_or_left, exists_or, exists_eq_right]

/-- Over a store that has the trees it asks for, a lookup is the descent of its path. -/
theorem lookup_follows {projection : Projection} {overlay : RootOverlay} {root : ObjectId}
    {path : Bytes} (rooted : projection.rootTree H = pure root)
    (asked : Projection.shadowing overlay path = none →
      Asked (entriesIn trees) (Lists H trees) (.tree (rootEntry root)) (components path)) :
    projection.lookup H overlay path = ExceptT.mk (pure (descent overlay trees root path)) := by
  unfold Projection.lookup descent
  cases shape : components path with
  | nil =>
    rw [shadowing_nil overlay shape, rooted]
    simp only [pure_bind, TreeNavigator.lookup, splitPath_empty shape]
    rfl
  | cons first rest =>
    obtain ⟨-, head, behind⟩ := firstOf_components shape
    have shadow := shadowing_cons overlay shape
    cases shadowed : overlay.get first with
    | some entry =>
      rw [shadow, shadowed]
      simp only [head, resolve_follows trees, behind, shadowed]
    | none =>
      rw [shadow, shadowed, rooted]
      have kept : (split path).filter (· ≠ []) = first :: rest := shape
      simp only [pure_bind, TreeNavigator.lookup, splitPath, kept, shadowed, dotted_iff]
      by_cases nul : 0 ∈ path
      · simp only [nul, if_true]
        rfl
      · by_cases dots : dot ∈ first :: rest ∨ dotdot ∈ first :: rest
        · simp only [nul, dots, if_true, if_false]
          rfl
        · simp only [nul, dots, if_false]
          have walks := asked (shadow.trans shadowed)
          rw [shape] at walks
          have proper : ∀ c ∈ [] ++ first :: rest, Component c := fun c among =>
            mem_components (shape.symm ▸ among)
          have root_ : (rootEntry root).mode.isDir = true := rfl
          exact walk_follows root_ proper walks

end Following

section Claims
variable {ω : Type}

def listing (G : Gix ω) (u : Universe ω) (w : ω) (oid : ObjectId) : List RawTreeEntry :=
  (treeOf G oid (u.found w oid)).toOption.getD []

def TreeLocal (G : Gix ω) (u : Universe ω) (w : ω) (node : ResolvedEntry) : Prop :=
  ∀ e, node = .tree e → e.mode.isDir = true → ∃ es, treeOf G e.oid (u.found w e.oid) = .ok es

def Needed (G : Gix ω) (u : Universe ω) (w : ω) (overlay : RootOverlay) (root : ObjectId)
    (path : Bytes) : Prop :=
  Projection.shadowing overlay path = none →
    Asked (entriesIn (listing G u w)) (TreeLocal G u w) (.tree (rootEntry root))
      (components path)

/-- The objects behind a git entry are what its mode says. -/
def ResolvedBacked (G : Gix ω) (u : Universe ω) (node : ResolvedEntry) : Prop :=
  ∀ e, node = .tree e → EntryBacked G u e.oid e.mode

theorem needed_of_local {G : Gix ω} {u : Universe ω} {w : ω} {overlay : RootOverlay}
    {root : ObjectId} {es : List RawTreeEntry} (local_ : AllLocal u w) (backed : Backed G u)
    (tree : treeOf G root (u.object root) = .ok es) (path : Bytes) :
    Needed G u w overlay root path := by
  have start : ResolvedBacked G u (.tree (rootEntry root)) := by
    intro e same
    cases same
    exact ⟨es, tree⟩
  intro _
  refine (asked_of_inherited start ?_).mono ?_
  · intro node named name child before directory found e same
    subst same
    rcases node with d | ⟨label, content | children | target⟩
    · by_cases dir : d.mode.isDir = true
      · rw [entriesIn_tree dir] at directory
        cases directory
        obtain ⟨raw, hit, same⟩ := Option.map_eq_some_iff.mp found
        cases same
        have entry := before d rfl
        rw [EntryMode.isDir_iff.mp dir] at entry
        obtain ⟨inner, ok⟩ := entry
        have listed : listing G u w d.oid = inner := by
          simp [listing, found_of_local local_, ok, Except.toOption]
        rw [listed] at hit
        exact backed d.oid inner ok raw (List.mem_of_find?_eq_some hit)
      · rw [entriesIn_leaf dir] at directory
        cases directory
    · cases directory
    · cases directory
      obtain ⟨inner, -, same⟩ := Option.map_eq_some_iff.mp found
      cases same
    · cases directory
  · intro node entry e same dir
    have entry := entry e same
    rw [EntryMode.isDir_iff.mp dir] at entry
    rw [found_of_local local_]
    exact entry

/-- The error without the path text that `InvalidPath` echoes. -/
def ProjectionError.unechoed : ProjectionError → ProjectionError
  | .invalidPath _ reason => .invalidPath [] reason
  | e => e

variable {G : Gix ω} {u : Universe ω} {published : ObjectId → Prop} {s : Store ω}
  {projection : Projection} {overlay : RootOverlay} {root : ObjectId} {path other : Bytes}

theorem listing_lists {node : ResolvedEntry} {w : ω} (refs : Bytes → Except String ObjectId)
    (near : TreeLocal G u w node) : Lists (G.uncached (u.found w) refs) (listing G u w) node := by
  intro e same dir
  obtain ⟨es, tree⟩ := near e same dir
  have listed : listing G u w e.oid = es := by simp [listing, tree, Except.toOption]
  rw [listed]
  exact tree

theorem lookup_gives (answers : G.Answers u) (truthful : Truthful G u published s)
    (rooted : Gives (projection.rootTree G.handle).run s fun r _ => r = .ok root)
    (needed : Needed G u s.world overlay root path) :
    Gives (projection.lookup G.handle overlay path).run s fun r _ =>
      r = descent overlay (listing G u s.world) root path := by
  let H := G.uncached (u.found s.world) (G.findReference s.world)
  have simulates : Simulates (At G u published s.world) G.handle H :=
    ⟨readTree_returns answers s.world, commitTree_returns answers s.world,
      resolveRef_returns s.world⟩
  have pureRoot : projection.rootTree H = pure root :=
    (rootTree_returns simulates projection s ⟨truthful, rfl⟩).1.symm.trans rooted
  have follows : projection.lookup H overlay path = _ :=
    lookup_follows pureRoot fun clear =>
      (needed clear).mono fun _ near => listing_lists (G.findReference s.world) near
  apply (lookup_returns simulates projection overlay path s ⟨truthful, rfl⟩).mono
  intro r _ given
  rw [given.1, follows]
  rfl

theorem lookupHalting_gives (answers : G.Answers u) (truthful : Truthful G u published s)
    (rooted : Gives (projection.rootTree G.handle).run s fun r _ => r = .ok root)
    (needed : Needed G u s.world overlay root path) :
    Gives (projection.lookupHalting G.handle overlay path).run s fun r _ =>
      r = (descent overlay (listing G u s.world) root path).mapError .error := by
  rw [lookup_halting, gives_run_adapt]
  apply (lookup_gives answers truthful rooted needed).mono
  intro r _ given
  rw [given]

theorem descent_respelled (overlay : RootOverlay) (trees : ObjectId → List RawTreeEntry)
    (root : ObjectId) (respelled : Respelled path other) :
    (descent overlay trees root other).mapError ProjectionError.unechoed =
      (descent overlay trees root path).mapError ProjectionError.unechoed := by
  have nul : 0 ∈ other ↔ 0 ∈ path := mem_respelled respelled (by decide)
  unfold descent
  rw [components_respelled respelled]
  cases components path with
  | nil => rfl
  | cons first rest =>
    cases shadowed : overlay.get first with
    | some entry => simp only [shadowed]
    | none =>
      simp only [shadowed, nul]
      by_cases inside : 0 ∈ path
      · simp only [inside, if_true]
        rfl
      · by_cases dots : ∃ c ∈ first :: rest, c = dot ∨ c = dotdot
        · simp only [inside, dots, if_true, if_false]
          rfl
        · simp only [inside, dots, if_false]

theorem needed_respelled {w : ω} (needed : Needed G u w overlay root path)
    (respelled : Respelled path other) : Needed G u w overlay root other := by
  have same := components_respelled respelled
  intro clear
  rw [same]
  apply needed
  cases shape : components path with
  | nil => exact shadowing_nil overlay shape
  | cons first rest =>
    rw [shape] at same
    rw [shadowing_cons overlay shape, ← shadowing_cons overlay same, clear]

/-- A lookup is the descent of its path's components, in both layers, however the path is
    spelled, and never reaches an `unreachable!`. -/
theorem lookup_is_descent (answers : G.Answers u) (truthful : Truthful G u published s)
    (rooted : Gives (projection.rootTree G.handle).run s fun r _ => r = .ok root)
    (needed : Needed G u s.world overlay root path) (respelled : Respelled path other) :
    (Gives (projection.lookupHalting G.handle overlay path).run s fun r _ =>
      r = (descent overlay (listing G u s.world) root path).mapError .error) ∧
    (Gives (projection.lookupHalting G.handle overlay other).run s fun r _ =>
      r = (descent overlay (listing G u s.world) root other).mapError .error) ∧
    (descent overlay (listing G u s.world) root other).mapError ProjectionError.unechoed =
      (descent overlay (listing G u s.world) root path).mapError ProjectionError.unechoed :=
  ⟨lookupHalting_gives answers truthful rooted needed,
    lookupHalting_gives answers truthful rooted (needed_respelled needed respelled),
    descent_respelled overlay _ root respelled⟩

section Sample
open ProjgitTables

def sampleStore : Store World := .open ⟨[], []⟩

theorem sample_listing {oid : ObjectId} {es : List RawTreeEntry}
    (row : sampleTables.trees.lookup oid = some es) :
    listing sampleTables.gix sampleTables.objects ⟨[], []⟩ oid = es := by
  have tree := Tables.treeOf_hit (t := sampleTables) (by decide +kernel) row
  simp [listing, found_of_local sample_setting.allLocal, tree, Except.toOption]

theorem sample_descent {overlay : RootOverlay} (clear : overlay.get (ascii "d") = none) :
    descent overlay (listing sampleTables.gix sampleTables.objects ⟨[], []⟩) (fixtureId 2)
      (ascii "d/l") = .ok (.tree ⟨ascii "l", .symlink, 0o120000, fixtureId 5⟩) := by
  have names : components (ascii "d/l") = [ascii "d", ascii "l"] := by decide +kernel
  have plain : ¬ (0 ∈ ascii "d/l") := by decide +kernel
  have dots : ¬ ∃ c ∈ [ascii "d", ascii "l"], c = dot ∨ c = dotdot := by
    decide +kernel
  unfold descent
  simp only [names, clear, plain, dots, if_false]
  have top : entriesIn (listing sampleTables.gix sampleTables.objects ⟨[], []⟩)
      (.tree (rootEntry (fixtureId 2))) = _ := entriesIn_tree rfl
  have inner : entriesIn (listing sampleTables.gix sampleTables.objects ⟨[], []⟩)
      (.tree ⟨ascii "d", .directory, 0o040000, fixtureId 3⟩) = _ := entriesIn_tree rfl
  have d : ((listing sampleTables.gix sampleTables.objects ⟨[], []⟩ (fixtureId 2)).find?
      (·.name = ascii "d")).map (fun raw => ResolvedEntry.tree (.ofRaw raw)) =
        some (.tree ⟨ascii "d", .directory, 0o040000, fixtureId 3⟩) := by
    rw [sample_listing rfl]
    rfl
  have l : ((listing sampleTables.gix sampleTables.objects ⟨[], []⟩ (fixtureId 3)).find?
      (·.name = ascii "l")).map (fun raw => ResolvedEntry.tree (.ofRaw raw)) =
        some (.tree ⟨ascii "l", .symlink, 0o120000, fixtureId 5⟩) := by
    rw [sample_listing rfl]
    rfl
  rw [follow_child top d, follow_child inner l]
  rfl

theorem sample_truthful :
    Truthful sampleTables.gix sampleTables.objects nothing sampleStore :=
  truthful_new _ _ _ _ _ _ _ _

theorem sample_needed (overlay : RootOverlay) (path : Bytes) :
    Needed sampleTables.gix sampleTables.objects sampleStore.world overlay (fixtureId 2) path := by
  obtain ⟨es, tree⟩ := sample_setting.rootTree
  exact needed_of_local sample_setting.allLocal sample_setting.backed tree path

theorem sample_rooted : Gives ((Projection.commit (fixtureId 1)).rootTree
    sampleTables.gix.handle).run sampleStore fun r _ => r = .ok (fixtureId 2) := by
  have returns := rootTree_returns sample_setting.simulates (.commit (fixtureId 1)) sampleStore
    ⟨sample_truthful, rfl⟩
  exact returns.1.trans (congrArg (fun x => x.run.run) sample_setting.rooted)

theorem sample_link_looked_up :
    (Gives ((Projection.commit (fixtureId 1)).lookupHalting sampleTables.gix.handle dotGit
        (ascii "d/l")).run sampleStore fun r _ =>
      r = .ok (.tree ⟨ascii "l", .symlink, 0o120000, fixtureId 5⟩)) ∧
    Gives ((Projection.commit (fixtureId 1)).lookupHalting sampleTables.gix.handle dotGit
        (ascii "/d/l")).run sampleStore fun r _ =>
      r = .ok (.tree ⟨ascii "l", .symlink, 0o120000, fixtureId 5⟩) := by
  have respelled : Respelled (ascii "d/l") (ascii "/d/l") := .single (.leading (ascii "d/l"))
  obtain ⟨here, there, same⟩ :=
    lookup_is_descent sampleTables.answers sample_truthful sample_rooted
      (sample_needed dotGit _) respelled
  have told : descent dotGit (listing sampleTables.gix sampleTables.objects sampleStore.world)
      (fixtureId 2) (ascii "d/l") = .ok (.tree ⟨ascii "l", .symlink, 0o120000, fixtureId 5⟩) :=
    sample_descent rfl
  rw [told] at here same
  refine ⟨here, there.mono fun r _ given => ?_⟩
  cases other : descent dotGit (listing sampleTables.gix sampleTables.objects sampleStore.world)
      (fixtureId 2) (ascii "/d/l") with
  | error e =>
    rw [other] at same
    cases same
  | ok found =>
    rw [other] at same given
    cases same
    exact given

end Sample
end Claims
end ProjgitProjection
