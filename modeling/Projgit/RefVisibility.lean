import Projgit.NestedInsert
import Projgit.PathSemantics

/-!
A2 ref visibility as path resolution sees it: the symbolic `HEAD` and the loose ref are
there, and everything else that was there is there still.
-/
namespace ProjgitProjection
open Utf8Bytes ProjgitStore SlashPath SortedMap

/-! ### One insertion, seen from a path -/

section
variable {content : Bytes} {path q : List Bytes} {e e' node : SyntheticEntry}

/-- The path of the insertion itself does not lead to a directory. -/
def Vacant (e : SyntheticEntry) (path : List Bytes) : Prop :=
  ∀ children, nodeAt e path ≠ some (.directory children)

theorem Vacant.nothing_below (vacant : Vacant e path) {under : List Bytes} (some_ : under ≠ []) :
    nodeAt e (path ++ under) = none := by
  cases found : nodeAt e (path ++ under) with
  | none => rfl
  | some node =>
    obtain ⟨children, there⟩ := directory_above some_ (by rw [found]; rfl)
    exact absurd there (vacant children)

theorem Inserted.keeps_leaf (inserted : Inserted content path e e') (open_ : Open e path)
    (vacant : Vacant e path) (other : q ≠ path) (found : nodeAt e q = some node)
    (leaf : ¬ node.IsDirectory) : nodeAt e' q = some node := by
  rw [inserted.apart q ?_ ?_]
  · exact found
  · rintro ⟨under, split⟩
    refine leaf (open_ q under split.symm ?_ node found)
    rintro rfl
    exact other (by simpa using split)
  · rintro ⟨under, rfl⟩
    rw [vacant.nothing_below (by rintro rfl; exact other (by simp))] at found
    cases found

theorem Inserted.keeps_directory (inserted : Inserted content path e e') (vacant : Vacant e path)
    {children : List (Bytes × SyntheticEntry)} (found : nodeAt e q = some (.directory children)) :
    ∃ children', nodeAt e' q = some (.directory children') ∧
      children.map Prod.fst ⊆ children'.map Prod.fst := by
  have other : q ≠ path := by
    rintro rfl
    exact vacant children found
  by_cases above : q <+: path
  · obtain ⟨under, split⟩ := above
    have some_ : under ≠ [] := by
      rintro rfl
      exact other (by simpa using split)
    obtain ⟨children', there, keys⟩ := inserted.above q under split.symm some_
    exact ⟨children', there, keys children found⟩
  · refine ⟨children, ?_, fun _ member => member⟩
    rw [inserted.apart q above ?_]
    · exact found
    · rintro ⟨under, rfl⟩
      rw [vacant.nothing_below (by rintro rfl; exact other (by simp))] at found
      cases found

/-- What is new is the file and what had to be created above it. -/
theorem Inserted.new_above (inserted : Inserted content path e e')
    (found : nodeAt e' q = some node) (absent : nodeAt e q = none) : q <+: path := by
  by_contra notAbove
  by_cases below : path <+: q
  · obtain ⟨under, rfl⟩ := below
    rw [inserted.below under (by rintro rfl; exact notAbove (by simp))] at found
    cases found
  · rw [inserted.apart q notAbove below, absent] at found
    cases found

end

/-! ### Resolution in an overlay -/

def RootOverlay.tree (overlay : RootOverlay) : SyntheticEntry := .directory overlay.entries

theorem overlay_ext {overlay other : RootOverlay} (same : overlay.tree = other.tree) :
    overlay = other := by
  cases overlay
  cases other
  cases same
  rfl

theorem walkSynthetic_ok (entry : SyntheticEntry) (walked name : Bytes) (rest : List Bytes)
    (r : ResolvedEntry) : walkSynthetic entry walked name rest = .ok r ↔
      ∃ node, nodeAt entry (name :: rest) = some node ∧
        r = .synthetic (rest.getLastD name) node := by
  induction rest generalizing entry walked name with
  | nil =>
    cases entry with
    | file | symlink => simp [walkSynthetic, nodeAt]
    | directory children =>
      cases found : children.lookup name <;> simp [walkSynthetic, nodeAt, found, eq_comm]
  | cons next rest ih =>
    cases entry with
    | file | symlink => simp [walkSynthetic, nodeAt]
    | directory children =>
      rw [nodeAt_directory_cons]
      cases found : children.lookup name with
      | none => simp [walkSynthetic, found]
      | some child =>
        simp only [walkSynthetic, found, Option.bind_some]
        rw [ih child (walked ++ slash :: name) next, List.getLastD_cons]

theorem resolveInSynthetic_ok (head : Bytes) (entry : SyntheticEntry) (rest : Bytes)
    (r : ResolvedEntry) : resolveInSynthetic head entry rest = .ok r ↔
      ∃ node, nodeAt entry (components rest) = some node ∧
        r = .synthetic ((components rest).getLastD head) node := by
  unfold resolveInSynthetic
  by_cases done : trim rest = []
  · simp [done, components_eq_nil.mpr done, nodeAt, eq_comm]
  · have same : (split (trim rest)).filter (· ≠ []) = components rest := components_trim rest
    simp only [done, if_false, same]
    cases shape : components rest with
    | nil => exact absurd (components_eq_nil.mp shape) done
    | cons first more =>
      simp only []
      rw [walkSynthetic_ok, List.getLastD_cons]

section
variable {σ : Type} (projection : Projection) (store : StoreHandle (StateM σ)) (s : σ)

def resolved (overlay : RootOverlay) (path : Bytes) : Except ProjectionError ResolvedEntry :=
  ((projection.lookup store overlay path).run.run s).1

variable {overlay other : RootOverlay} {path : Bytes}

theorem resolved_shadowed {first : Bytes} {rest : List Bytes}
    (shape : components path = first :: rest) (shadowed : (overlay.get first).isSome)
    (r : ResolvedEntry) : resolved projection store s overlay path = .ok r ↔
      ∃ node, nodeAt overlay.tree (components path) = some node ∧
        r = .synthetic (rest.getLastD first) node := by
  obtain ⟨entry, found⟩ := Option.isSome_iff_exists.mp shadowed
  obtain ⟨-, head, behind⟩ := firstOf_components shape
  have shadow := shadowing_cons overlay shape
  have pure_ : resolved projection store s overlay path =
      resolveInSynthetic first entry ((trim path).drop first.length) := by
    rw [resolved, Projection.lookup, shadow, found, head]
    rfl
  have there : nodeAt overlay.tree (first :: rest) = nodeAt entry rest := by
    rw [RootOverlay.tree, nodeAt_directory_cons, show overlay.entries.lookup first = some entry
      from found, Option.bind_some]
  rw [pure_, resolveInSynthetic_ok, behind, shape, there]

theorem resolved_root (root : components path = []) :
    resolved projection store s overlay path = resolved projection store s other path ∧
      ∀ r, resolved projection store s other path = .ok r →
        ∃ oid, r = .tree (rootEntry oid) := by
  rw [resolved, resolved, Projection.lookup, Projection.lookup, shadowing_nil overlay root,
    shadowing_nil other root]
  refine ⟨rfl, fun r found => ?_⟩
  have rooted : (((fun oid => .tree (rootEntry oid)) <$> projection.rootTree store :
      ExceptT ProjectionError (StateM σ) ResolvedEntry).run.run s).1 = .ok r := by
    rw [← found, map_eq_pure_bind]
    simp only [TreeNavigator.lookup, splitPath_empty root]
    rfl
  rw [ExceptT.run_map, StateT.run_map] at rooted
  change Except.map _ ((projection.rootTree store).run.run s).1 = .ok r at rooted
  cases answer : ((projection.rootTree store).run.run s).1 with
  | error e =>
    rw [answer] at rooted
    cases rooted
  | ok oid =>
    rw [answer] at rooted
    cases rooted
    exact ⟨oid, rfl⟩

/-- Overlays with the same names at the top leave the same paths to the git tree. -/
theorem resolved_cases (roots : ∀ name, (overlay.get name).isSome = (other.get name).isSome)
    (path : Bytes) : resolved projection store s overlay path =
        resolved projection store s other path ∨
      ∃ first rest, components path = first :: rest ∧ (overlay.get first).isSome ∧
        (other.get first).isSome := by
  cases shape : components path with
  | nil =>
    refine Or.inl ?_
    rw [resolved, resolved, Projection.lookup, Projection.lookup, shadowing_nil overlay shape,
      shadowing_nil other shape]
  | cons first rest =>
    cases shadowed : overlay.get first with
    | some entry =>
      have there := roots first
      rw [shadowed] at there
      exact Or.inr ⟨first, rest, rfl, by rw [shadowed]; rfl, there.symm⟩
    | none =>
      have there := roots first
      rw [shadowed] at there
      have absent : other.get first = none := by simpa using there.symm
      refine Or.inl ?_
      rw [resolved, resolved, Projection.lookup, Projection.lookup, shadowing_cons overlay shape,
        shadowing_cons other shape, shadowed, absent]

end

/-! ### The splices as insertions -/

section
variable {overlay after : RootOverlay} {content : Bytes} {path : List Bytes}

theorem getMut_eq {name : Bytes} {entry : SyntheticEntry} (found : overlay.get name = some entry)
    (update : SortedEntry → Option SortedEntry) : overlay.getMut name update =
      (update ⟨entry, sorted_of_lookup overlay.sorted found⟩).map fun e => overlay.insert name e := by
  unfold RootOverlay.getMut
  split
  · rename_i absent
    rw [found] at absent
    cases absent
  · rename_i entry' found'
    cases found.symm.trans found'
    rfl

theorem sortedInsertNested_eq {e : SortedEntry} {e' : SyntheticEntry}
    (done : insertNested content path e.1 = some e') :
    SortedEntry.insertNested path content e = some ⟨e', insertNested_sorted done e.2⟩ := by
  unfold SortedEntry.insertNested
  split
  · rename_i none_
    rw [done] at none_
    cases none_
  · rename_i other same
    cases done.symm.trans same
    rfl

theorem splice_of_insert (has : (overlay.get dotgitName).isSome) (some_ : path ≠ [])
    {e' : SyntheticEntry}
    (done : insertNested content (dotgitName :: path) overlay.tree = some e') :
    ∃ after, spliceNestedDotgitFile path content overlay = some after ∧ after.tree = e' := by
  obtain ⟨entry, found⟩ := Option.isSome_iff_exists.mp has
  obtain ⟨children, child, root, rfl, last | ⟨-, inner⟩⟩ := insertNested_cons rfl done
  · exact absurd last.1 some_
  · cases root
    rw [show overlay.entries.lookup dotgitName = some entry from found, Option.getD_some] at inner
    refine ⟨overlay.insert dotgitName ⟨child, insertNested_sorted inner
      (sorted_of_lookup overlay.sorted found)⟩, ?_, rfl⟩
    rw [spliceNestedDotgitFile, if_neg some_, getMut_eq found, sortedInsertNested_eq inner]
    rfl

theorem spliceDotgitChild_eq (name content : Bytes) (overlay : RootOverlay) :
    spliceDotgitChild name content overlay = spliceNestedDotgitFile [name] content overlay := by
  rw [spliceDotgitChild, spliceNestedDotgitFile, if_neg (by simp)]
  congr 1
  funext dotgit
  obtain ⟨entry, sorted⟩ := dotgit
  cases entry with
  | file | symlink => rfl
  | directory children =>
    have done : insertNested content [name] (SyntheticEntry.directory children) =
      some (.directory (put name (SortedEntry.file content).1 children)) := rfl
    rw [sortedInsertNested_eq done]
    rfl

theorem roots_kept (has : (overlay.get dotgitName).isSome)
    (done : insertNested content (dotgitName :: path) overlay.tree = some after.tree) :
    after.entries.map Prod.fst = overlay.entries.map Prod.fst := by
  obtain ⟨entry, found⟩ := Option.isSome_iff_exists.mp has
  obtain ⟨children, child, root, same, -⟩ := insertNested_cons rfl done
  cases root
  have keys : (overlay.entries.map Prod.fst).Pairwise (· < ·) := by
    cases overlay.sorted with
    | directory keys each => exact keys
  have entries : after.entries = put dotgitName child overlay.entries := by
    injection same
  rw [entries, keys_put_of_mem keys (key_of_lookup found)]

theorem get_isSome_of_roots {other : RootOverlay}
    (roots : other.entries.map Prod.fst = overlay.entries.map Prod.fst) (name : Bytes) :
    (overlay.get name).isSome = (other.get name).isSome := by
  have member : ∀ overlay : RootOverlay,
      (overlay.get name).isSome = true ↔ name ∈ overlay.entries.map Prod.fst := by
    intro overlay
    rw [RootOverlay.get, List.lookup_isSome_iff]
    simp only [List.mem_map, beq_iff_eq]
    exact exists_congr fun entry => and_congr_right fun _ => eq_comm
  rw [Bool.eq_iff_iff, member, member, roots]

theorem dotgit_kept (has : (overlay.get dotgitName).isSome)
    (done : insertNested content (dotgitName :: path) overlay.tree = some after.tree) :
    (after.get dotgitName).isSome := by
  rw [← get_isSome_of_roots (roots_kept has done)]
  exact has

end

/-! ### The two splices of A2 -/

def headPath : List Bytes := [dotgitName, headName]

def refNames (branch : List Bytes) : List Bytes := refsName :: headsName :: branch

/-- What A2 needs of an overlay: a `HEAD` that is a file, and no branch yet. -/
structure Headed (overlay : RootOverlay) : Prop where
  head : ∃ content modeRaw, nodeAt overlay.tree headPath = some (.file content modeRaw)
  heads : nodeAt overlay.tree [dotgitName, refsName, headsName] = some (.directory [])

section
variable {overlay : RootOverlay} {branch : List Bytes}

theorem Headed.has (headed : Headed overlay) : (overlay.get dotgitName).isSome := by
  obtain ⟨content, modeRaw, there⟩ := headed.head
  rw [RootOverlay.tree, headPath, nodeAt_directory_cons] at there
  obtain ⟨child, found, -⟩ := Option.bind_eq_some_iff.mp there
  rw [RootOverlay.get, found]
  rfl

theorem open_of_node {e node : SyntheticEntry} {path : List Bytes}
    (there : nodeAt e path = some node) : Open e path := by
  rintro above below rfl some_ node' found
  obtain ⟨children, here⟩ := directory_above some_ (by rw [there]; rfl)
  rw [found] at here
  exact ⟨children, Option.some.inj here⟩

theorem Headed.vacant_head (headed : Headed overlay) : Vacant overlay.tree headPath := by
  obtain ⟨content, modeRaw, there⟩ := headed.head
  intro children found
  rw [there] at found
  cases found

theorem nothing_in_heads {e : SyntheticEntry}
    (heads : nodeAt e [dotgitName, refsName, headsName] = some (.directory [])) {names : List Bytes}
    (some_ : names ≠ []) : nodeAt e (dotgitName :: refNames names) = none := by
  have split : dotgitName :: refNames names = [dotgitName, refsName, headsName] ++ names := rfl
  obtain ⟨first, rest, rfl⟩ := List.exists_cons_of_ne_nil some_
  rw [split, nodeAt_append, heads]
  rfl

theorem open_ref {e : SyntheticEntry}
    (heads : nodeAt e [dotgitName, refsName, headsName] = some (.directory [])) :
    Open e (dotgitName :: refNames branch) := by
  intro above below split some_ node found
  have whole : [dotgitName, refsName, headsName] ++ branch = above ++ below := split
  rw [List.append_eq_append_iff] at whole
  rcases whole with ⟨names, rfl, -⟩ | ⟨under, front, -⟩
  · -- From the directory of the branches on, there is only that directory.
    cases names with
    | nil =>
      rw [List.append_nil, heads] at found
      exact ⟨[], (Option.some.inj found).symm⟩
    | cons first rest =>
      rw [nodeAt_append, heads] at found
      cases found
  · by_cases here : under = []
    · rw [here, List.append_nil] at front
      rw [← front, heads] at found
      exact ⟨[], (Option.some.inj found).symm⟩
    · exact open_of_node heads above under front here node found

theorem apart_of_head (branch : List Bytes) : ¬ headPath <+: dotgitName :: refNames branch ∧
    ¬ dotgitName :: refNames branch <+: headPath := by
  constructor
  · intro start
    rw [headPath, List.cons_prefix_cons, refNames, List.cons_prefix_cons] at start
    exact absurd start.2.1 (by decide)
  · intro start
    rw [headPath, List.cons_prefix_cons, refNames, List.cons_prefix_cons] at start
    exact absurd start.2.1 (by decide)

end

def branchName (branch : List Bytes) : Bytes := refsHeads ++ join branch

/-- The overlay of a mount before A2, with an index or without. -/
def dotgitOverlay (commitOid : ObjectId) (objectsDir : Bytes) : Option Bytes → Option RootOverlay
  | none => a1Overlay commitOid objectsDir
  | some indexBytes => a1PlusOverlay commitOid objectsDir indexBytes

section
variable {overlay middle after : RootOverlay} {commitOid : ObjectId} {branch : List Bytes}

structure Spliced (commitOid : ObjectId) (branch : List Bytes)
    (overlay middle after : RootOverlay) : Prop where
  headed : Headed overlay
  first : insertNested (symbolicHead (branchName branch)) headPath overlay.tree =
    some middle.tree
  second : insertNested (oidLine commitOid) (dotgitName :: refNames branch) middle.tree =
    some after.tree

theorem Spliced.head (spliced : Spliced commitOid branch overlay middle after) :
    Inserted (symbolicHead (branchName branch)) headPath overlay.tree middle.tree :=
  insertNested_inserted spliced.first

theorem Spliced.ref (spliced : Spliced commitOid branch overlay middle after) :
    Inserted (oidLine commitOid) (dotgitName :: refNames branch) middle.tree after.tree :=
  insertNested_inserted spliced.second

theorem Spliced.open_head (spliced : Spliced commitOid branch overlay middle after) :
    Open overlay.tree headPath := by
  obtain ⟨content, modeRaw, there⟩ := spliced.headed.head
  exact open_of_node there

/-- The first splice does not reach the directory of the branches. -/
theorem heads_after_head {content : Bytes} {e : SyntheticEntry} (headed : Headed overlay)
    (inserted : Inserted content headPath overlay.tree e) :
    nodeAt e [dotgitName, refsName, headsName] = some (.directory []) := by
  obtain ⟨notAbove, notBelow⟩ := apart_of_head []
  exact (inserted.apart _ notBelow notAbove).trans headed.heads

theorem Spliced.heads (spliced : Spliced commitOid branch overlay middle after) :
    nodeAt middle.tree [dotgitName, refsName, headsName] = some (.directory []) :=
  heads_after_head spliced.headed spliced.head

theorem Spliced.vacant_ref (spliced : Spliced commitOid branch overlay middle after)
    (some_ : branch ≠ []) : Vacant middle.tree (dotgitName :: refNames branch) := by
  intro children found
  rw [nothing_in_heads spliced.heads some_] at found
  cases found

theorem Spliced.head_there (spliced : Spliced commitOid branch overlay middle after) :
    nodeAt after.tree headPath =
      some (.file (symbolicHead (branchName branch)) 0o100644) := by
  obtain ⟨notAbove, notBelow⟩ := apart_of_head branch
  rw [spliced.ref.apart headPath notAbove notBelow]
  exact spliced.head.leaf

theorem Spliced.keeps_leaf (spliced : Spliced commitOid branch overlay middle after)
    (some_ : branch ≠ []) {q : List Bytes} {node : SyntheticEntry} (other : q ≠ headPath)
    (found : nodeAt overlay.tree q = some node) (leaf : ¬ node.IsDirectory) :
    nodeAt after.tree q = some node := by
  have between := spliced.head.keeps_leaf spliced.open_head spliced.headed.vacant_head other
    found leaf
  refine spliced.ref.keeps_leaf (open_ref spliced.heads) (spliced.vacant_ref some_) ?_ between leaf
  rintro rfl
  rw [nothing_in_heads spliced.heads some_] at between
  cases between

theorem Spliced.keeps_directory (spliced : Spliced commitOid branch overlay middle after)
    (some_ : branch ≠ []) {q : List Bytes} {children : List (Bytes × SyntheticEntry)}
    (found : nodeAt overlay.tree q = some (.directory children)) :
    ∃ children', nodeAt after.tree q = some (.directory children') ∧
      children.map Prod.fst ⊆ children'.map Prod.fst := by
  obtain ⟨between, there, keys⟩ :=
    spliced.head.keeps_directory spliced.headed.vacant_head found
  obtain ⟨children', later, keys'⟩ :=
    spliced.ref.keeps_directory (spliced.vacant_ref some_) there
  exact ⟨children', later, fun key member => keys' (keys member)⟩

theorem Spliced.new_above (spliced : Spliced commitOid branch overlay middle after)
    {q : List Bytes} {node : SyntheticEntry} (found : nodeAt after.tree q = some node)
    (absent : nodeAt overlay.tree q = none) : q <+: dotgitName :: refNames branch := by
  cases between : nodeAt middle.tree q with
  | none => exact spliced.ref.new_above found between
  | some node' =>
    -- Whatever stands above `HEAD`, and `HEAD` itself, was there before.
    obtain ⟨rest, split⟩ := spliced.head.new_above between absent
    obtain ⟨content, modeRaw, there⟩ := spliced.headed.head
    rw [← split, nodeAt_append, absent] at there
    cases there

theorem Spliced.roots (spliced : Spliced commitOid branch overlay middle after) :
    after.entries.map Prod.fst = overlay.entries.map Prod.fst :=
  (roots_kept (dotgit_kept spliced.headed.has spliced.first) spliced.second).trans
    (roots_kept spliced.headed.has spliced.first)

theorem splits_branch (proper : ∀ c ∈ branch, Component c) (some_ : branch ≠ []) :
    split (branchName branch) = refNames branch := by
  have refs : slash ∉ refsName := by decide
  have heads : slash ∉ headsName := by decide
  have split_up : branchName branch = refsName ++ slash :: (headsName ++ slash :: join branch) := by
    simp [branchName, refsHeads]
  rw [split_up, split_append_slash, split_append_slash, split_of_noSlash refs,
    split_of_noSlash heads, split_join proper some_]
  rfl

theorem apply_of_splices (proper : ∀ c ∈ branch, Component c) (some_ : branch ≠ [])
    (first : spliceNestedDotgitFile [headName] (symbolicHead (branchName branch)) overlay =
      some middle)
    (second : spliceNestedDotgitFile (refNames branch) (oidLine commitOid) middle = some after) :
    applyA2RefVisibility (branchName branch) commitOid overlay = some after := by
  have named : refsHeads <+: branchName branch := List.prefix_append _ _
  have long : 3 ≤ (refNames branch).length := by
    have positive := List.length_pos_iff.mpr some_
    simp only [refNames, List.length_cons]
    omega
  rw [applyA2RefVisibility, if_pos named, spliceDotgitChild_eq, first]
  simp only [Option.bind_eq_bind, Option.bind_some, splits_branch proper some_]
  rw [if_pos ⟨long, rfl, rfl⟩]
  exact second

theorem Spliced.has_after (spliced : Spliced commitOid branch overlay middle after) :
    (after.get dotgitName).isSome :=
  dotgit_kept (dotgit_kept spliced.headed.has spliced.first) spliced.second

theorem exists_spliced (headed : Headed overlay) (commitOid : ObjectId)
    (proper : ∀ c ∈ branch, Component c) (some_ : branch ≠ []) :
    ∃ middle after, Spliced commitOid branch overlay middle after ∧
      applyA2RefVisibility (branchName branch) commitOid overlay = some after := by
  obtain ⟨content, modeRaw, there⟩ := headed.head
  obtain ⟨e', first⟩ := insertNested_some (symbolicHead (branchName branch)) (by simp [headPath])
    (open_of_node there)
  obtain ⟨middle, done, same⟩ := splice_of_insert headed.has (by simp) first
  rw [← same] at first
  have heads := heads_after_head headed (insertNested_inserted first)
  obtain ⟨e'', second⟩ := insertNested_some (oidLine commitOid) (by simp) (open_ref heads)
  obtain ⟨after, done', same'⟩ := splice_of_insert (dotgit_kept headed.has first) (by simp [refNames]) second
  rw [← same'] at second
  exact ⟨middle, after, ⟨headed, first, second⟩, apply_of_splices proper some_ done done'⟩

theorem dotgitOverlay_headed (commitOid : ObjectId) (objectsDir : Bytes) (index : Option Bytes) :
    ∃ overlay, dotgitOverlay commitOid objectsDir index = some overlay ∧ Headed overlay := by
  cases index with
  | none => exact ⟨_, rfl, ⟨_, _, rfl⟩, rfl⟩
  | some indexBytes => exact ⟨_, rfl, ⟨_, _, rfl⟩, rfl⟩

end

def SyntheticDirectory (r : ResolvedEntry) : Prop :=
  ∃ name children, r = .synthetic name (.directory children)

/-- A branch made visible: `look` and `lookAfter` resolve a path before and after. Paths
    are told apart by their components, as resolution does. -/
structure RefVisible (commitOid : ObjectId) (branch : List Bytes)
    (look lookAfter : Bytes → Except ProjectionError ResolvedEntry) : Prop where
  head : lookAfter (dotgitName ++ slash :: headName) =
    .ok (.synthetic headName (.file (symbolicHead (branchName branch)) 0o100644))
  ref : ∃ name, lookAfter (dotgitName ++ slash :: branchName branch) =
    .ok (.synthetic name (.file (oidLine commitOid) 0o100644))
  above : ∀ path, components path ≠ [] → components path <+: dotgitName :: refNames branch →
    components path ≠ dotgitName :: refNames branch →
    ∃ r, lookAfter path = .ok r ∧ SyntheticDirectory r
  root : ∀ path, components path = [] → lookAfter path = look path ∧
    ∀ r, look path = .ok r → ∃ oid, r = .tree (rootEntry oid)
  others : ∀ path r, components path ≠ headPath → look path = .ok r →
    ¬ SyntheticDirectory r → lookAfter path = .ok r
  directories : ∀ path name children,
    look path = .ok (.synthetic name (.directory children)) →
    ∃ children', lookAfter path = .ok (.synthetic name (.directory children')) ∧
      children.map Prod.fst ⊆ children'.map Prod.fst
  fresh : ∀ path r, lookAfter path = .ok r → (∀ r', look path ≠ .ok r') →
    components path <+: dotgitName :: refNames branch

section
variable {overlay middle after : RootOverlay} {commitOid : ObjectId} {branch : List Bytes}
  {σ : Type} (projection : Projection) (store : StoreHandle (StateM σ)) (s : σ)

theorem Spliced.resolved_dotGit (spliced : Spliced commitOid branch overlay middle after)
    {path : Bytes} {rest : List Bytes} (shape : components path = dotgitName :: rest)
    (r : ResolvedEntry) : resolved projection store s after path = .ok r ↔
      ∃ node, nodeAt after.tree (components path) = some node ∧
        r = .synthetic (rest.getLastD dotgitName) node := by
  exact resolved_shadowed projection store s shape spliced.has_after r

theorem components_branch (proper : ∀ c ∈ branch, Component c) (some_ : branch ≠ []) :
    components (dotgitName ++ slash :: branchName branch) = dotgitName :: refNames branch := by
  have first : components dotgitName = [dotgitName] := by decide
  have each : ∀ c ∈ refNames branch, c ≠ [] := by
    intro c member
    simp only [refNames, List.mem_cons] at member
    rcases member with rfl | rfl | below
    · decide
    · decide
    · exact (proper c below).nonempty
  rw [components_append_slash, first, components, splits_branch proper some_,
    List.filter_eq_self.mpr fun c member => by simpa using each c member]
  rfl

theorem Spliced.visible (spliced : Spliced commitOid branch overlay middle after)
    (proper : ∀ c ∈ branch, Component c) (some_ : branch ≠ []) :
    RefVisible commitOid branch (resolved projection store s overlay)
      (resolved projection store s after) where
  head := by
    have shape : components (dotgitName ++ slash :: headName) = [dotgitName, headName] := by decide
    refine (spliced.resolved_dotGit projection store s shape _).mpr ?_
    rw [shape]
    exact ⟨_, spliced.head_there, rfl⟩
  ref := by
    have shape := components_branch proper some_
    refine ⟨(refNames branch).getLastD dotgitName,
      (spliced.resolved_dotGit projection store s shape _).mpr ?_⟩
    rw [shape]
    exact ⟨_, spliced.ref.leaf, rfl⟩
  above := by
    intro path nonempty start other
    obtain ⟨under, split⟩ := start
    have deeper : under ≠ [] := by
      rintro rfl
      exact other (by simpa using split)
    obtain ⟨children, there, -⟩ := spliced.ref.above _ under split.symm deeper
    obtain ⟨first, rest, shape⟩ := List.exists_cons_of_ne_nil nonempty
    rw [shape, List.cons_append] at split
    obtain rfl : first = dotgitName := (List.cons.inj split).1
    exact ⟨_, (spliced.resolved_dotGit projection store s shape _).mpr ⟨_, there, rfl⟩,
      _, _, rfl⟩
  root := fun _ none_ => resolved_root projection store s none_
  others := by
    intro path r other found leaf
    rcases resolved_cases projection store s (get_isSome_of_roots spliced.roots) path with
      same | ⟨first, rest, shape, had, has⟩
    · rw [← same]
      exact found
    · obtain ⟨node, there, rfl⟩ := (resolved_shadowed projection store s shape had r).mp found
      refine (resolved_shadowed projection store s shape has _).mpr ⟨node, ?_, rfl⟩
      refine spliced.keeps_leaf some_ other there ?_
      rintro ⟨children, rfl⟩
      exact leaf ⟨_, children, rfl⟩
  directories := by
    intro path name children found
    rcases resolved_cases projection store s (get_isSome_of_roots spliced.roots) path with
      same | ⟨first, rest, shape, had, has⟩
    · rw [same] at found
      exact ⟨children, found, fun _ member => member⟩
    · obtain ⟨node, there, entry⟩ :=
        (resolved_shadowed projection store s shape had _).mp found
      injection entry with named same
      subst same
      obtain ⟨children', later, keys⟩ := spliced.keeps_directory some_ there
      exact ⟨children', (resolved_shadowed projection store s shape has _).mpr
        ⟨_, later, by rw [named]⟩, keys⟩
  fresh := by
    intro path r found absent
    rcases resolved_cases projection store s (get_isSome_of_roots spliced.roots) path with
      same | ⟨first, rest, shape, had, has⟩
    · rw [← same] at found
      exact absurd found (absent r)
    · obtain ⟨node, there, -⟩ := (resolved_shadowed projection store s shape has r).mp found
      refine spliced.new_above there ?_
      cases before : nodeAt overlay.tree (components path) with
      | none => rfl
      | some node' =>
        exact absurd ((resolved_shadowed projection store s shape had _).mpr
          ⟨node', before, rfl⟩) (absent _)

theorem Spliced.again (spliced : Spliced commitOid branch overlay middle after)
    (proper : ∀ c ∈ branch, Component c) (some_ : branch ≠ []) :
    applyA2RefVisibility (branchName branch) commitOid after = some after := by
  have head := insertNested_again after.sorted spliced.head_there (by simp [headPath])
  have ref := insertNested_again after.sorted spliced.ref.leaf (by simp)
  obtain ⟨first, done, same⟩ := splice_of_insert spliced.has_after (by simp) head
  obtain ⟨second, done', same'⟩ :=
    splice_of_insert spliced.has_after (by simp [refNames]) ref
  rw [overlay_ext same] at done
  rw [overlay_ext same'] at done'
  exact apply_of_splices proper some_ done done'

/-- A branch of any depth, made visible in an overlay with or without an index: nothing
    panics, and no path but its own and `HEAD` changes, whatever the projection and the
    store. -/
theorem a2_visible_and_local (headOid commitOid : ObjectId) (objectsDir : Bytes)
    (index : Option Bytes) (branch : List Bytes) (some_ : branch ≠ [])
    (proper : ∀ c ∈ branch, Component c) :
    ∃ overlay after, dotgitOverlay headOid objectsDir index = some overlay ∧
      applyA2RefVisibility (branchName branch) commitOid overlay = some after ∧
      after.entries.map Prod.fst = overlay.entries.map Prod.fst ∧
      (∀ (σ : Type) (projection : Projection) (store : StoreHandle (StateM σ)) (s : σ),
        RefVisible commitOid branch (resolved projection store s overlay)
          (resolved projection store s after)) ∧
      applyA2RefVisibility (branchName branch) commitOid after = some after := by
  obtain ⟨overlay, built, headed⟩ := dotgitOverlay_headed headOid objectsDir index
  obtain ⟨middle, after, spliced, applied⟩ := exists_spliced headed commitOid proper some_
  exact ⟨overlay, after, built, applied, spliced.roots,
    fun _ projection store s => spliced.visible projection store s proper some_,
    spliced.again proper some_⟩

/-- `refs/heads/heads/tags`, on a mount without an index. -/
theorem heads_tags_visible : ∃ overlay after : RootOverlay,
    dotgitOverlay ⟨List.replicate 20 1, rfl⟩ [] none = some overlay ∧
      applyA2RefVisibility (branchName [headsName, tagsName]) ⟨List.replicate 20 2, rfl⟩
        overlay = some after ∧
      after.entries.map Prod.fst = overlay.entries.map Prod.fst ∧
      (∀ (σ : Type) (projection : Projection) (store : StoreHandle (StateM σ)) (s : σ),
        RefVisible ⟨List.replicate 20 2, rfl⟩ [headsName, tagsName]
          (resolved projection store s overlay) (resolved projection store s after)) ∧
      applyA2RefVisibility (branchName [headsName, tagsName]) ⟨List.replicate 20 2, rfl⟩
        after = some after :=
  a2_visible_and_local _ _ _ _ _ (by simp) fun c member => by
    simp only [List.mem_cons, List.not_mem_nil, or_false] at member
    rcases member with rfl | rfl
    · exact ⟨by decide, by decide⟩
    · exact ⟨by decide, by decide⟩

end

end ProjgitProjection
