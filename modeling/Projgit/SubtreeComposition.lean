import Projgit.PathSemantics

/-!
A subtree of a commit is the commit seen from a directory. Looking a path up in it is
looking the joined path up in the commit, and a subtree of a subtree is one subtree. Both
sides read the same trees in the same order, so this needs nothing of the store.
-/
namespace ProjgitProjection
open Utf8Bytes ProjgitStore SlashPath Stateful

/-- A path without NUL, `.` and `..`. -/
structure Plain (path : Bytes) : Prop where
  noNul : 0 ∉ path
  noDots : ¬ (dot ∈ components path ∨ dotdot ∈ components path)

theorem splitPath_ok {path : Bytes} {cs : List Bytes} :
    splitPath path = .ok cs ↔ Plain path ∧ cs = components path := by
  have kept : (split path).filter (· ≠ []) = components path := rfl
  unfold splitPath
  by_cases nul : 0 ∈ path
  · simp only [nul, if_true, reduceCtorEq, false_iff]
    exact fun given => given.1.noNul nul
  · by_cases dots : dot ∈ components path ∨ dotdot ∈ components path
    · simp only [nul, if_false, kept, dots, if_true, reduceCtorEq, false_iff]
      exact fun given => given.1.noDots dots
    · simp only [nul, if_false, kept, dots, Except.ok.injEq]
      exact ⟨fun same => ⟨⟨nul, dots⟩, same.symm⟩, fun given => given.2.symm⟩

theorem plain_append (p q : Bytes) : Plain (p ++ slash :: q) ↔ Plain p ∧ Plain q := by
  have joined := components_append_slash p q
  have slash_ : (0 : UInt8) ≠ slash := by decide
  constructor
  · rintro ⟨noNul, noDots⟩
    simp only [List.mem_append, List.mem_cons, slash_, false_or, not_or] at noNul
    simp only [joined, List.mem_append, not_or] at noDots
    exact ⟨⟨noNul.1, by simp [noDots]⟩, ⟨noNul.2, by simp [noDots]⟩⟩
  · rintro ⟨first, second⟩
    refine ⟨?_, ?_⟩
    · simp [first.noNul, second.noNul, slash_]
    · have left := first.noDots
      have right := second.noDots
      simp only [not_or] at left right
      simp [joined, left, right]

section Walks
variable {σ : Type} {R : StoreHandle (StateM σ)} {s t : σ} {tree : ObjectId} {e : TreeEntry}
  {walked component : Bytes} {rest : List Bytes}

theorem yields_walk_nil : Yields (TreeNavigator.walk R tree walked component []) s e t ↔
    ∃ entries raw, Yields (R.readTree tree) s entries t ∧
      entries.find? (·.name = component) = some raw ∧ e = .ofRaw raw := by
  unfold TreeNavigator.walk
  simp only [yields_bind, yields_adapt]
  constructor
  · rintro ⟨entries, u, read, rest⟩
    cases found : entries.find? (·.name = component) with
    | none =>
      rw [found] at rest
      exact absurd rest (yields_throw _ _ _ _)
    | some raw =>
      rw [found] at rest
      obtain ⟨rfl, rfl⟩ := (yields_pure _ _ _ _).mp rest
      exact ⟨entries, raw, read, found, rfl⟩
  · rintro ⟨entries, raw, read, found, rfl⟩
    refine ⟨entries, t, read, ?_⟩
    rw [found]
    exact (yields_pure _ _ _ _).mpr ⟨rfl, rfl⟩

theorem yields_walk_cons {next : Bytes} :
    Yields (TreeNavigator.walk R tree walked component (next :: rest)) s e t ↔
      ∃ entries u raw, Yields (R.readTree tree) s entries u ∧
        entries.find? (·.name = component) = some raw ∧ (TreeEntry.ofRaw raw).mode.isDir = true ∧
        Yields (TreeNavigator.walk R raw.oid (pushComponent walked component) next rest) u e t := by
  rw [TreeNavigator.walk]
  simp only [yields_bind, yields_adapt]
  constructor
  · rintro ⟨entries, u, read, below⟩
    cases found : entries.find? (·.name = component) with
    | none =>
      rw [found] at below
      exact absurd below (yields_throw _ _ _ _)
    | some raw =>
      rw [found] at below
      by_cases dir : (TreeEntry.ofRaw raw).mode.isDir = true
      · simp only [dir, if_true] at below
        exact ⟨entries, u, raw, read, found, dir, below⟩
      · simp only [dir, Bool.false_eq_true, if_false] at below
        exact absurd below (yields_throw _ _ _ _)
  · rintro ⟨entries, u, raw, read, found, dir, below⟩
    refine ⟨entries, u, read, ?_⟩
    rw [found]
    simp only [dir, if_true]
    exact below

theorem yields_walked (other : Bytes) :
    Yields (TreeNavigator.walk R tree walked component rest) s e t ↔
      Yields (TreeNavigator.walk R tree other component rest) s e t := by
  induction rest generalizing tree walked other component s with
  | nil => simp only [yields_walk_nil]
  | cons next rest ih =>
    simp only [yields_walk_cons]
    constructor
    · rintro ⟨entries, u, raw, read, found, dir, below⟩
      exact ⟨entries, u, raw, read, found, dir, (ih _).mp below⟩
    · rintro ⟨entries, u, raw, read, found, dir, below⟩
      exact ⟨entries, u, raw, read, found, dir, (ih _).mpr below⟩

/-- A walk can be resumed from any directory on its way. -/
theorem yields_walk_append {front : List Bytes} {next : Bytes} (other : Bytes) :
    Yields (TreeNavigator.walk R tree walked component (front ++ next :: rest)) s e t ↔
      ∃ d u, Yields (TreeNavigator.walk R tree walked component front) s d u ∧
        d.mode.isDir = true ∧ Yields (TreeNavigator.walk R d.oid other next rest) u e t := by
  induction front generalizing tree walked component s with
  | nil =>
    rw [List.nil_append, yields_walk_cons]
    simp only [yields_walk_nil]
    constructor
    · rintro ⟨entries, u, raw, read, found, dir, below⟩
      exact ⟨_, u, ⟨entries, raw, read, found, rfl⟩, dir, (yields_walked other).mp below⟩
    · rintro ⟨d, u, ⟨entries, raw, read, found, rfl⟩, dir, below⟩
      exact ⟨entries, u, raw, read, found, dir, (yields_walked _).mp below⟩
  | cons x more ih =>
    rw [List.cons_append, yields_walk_cons]
    simp only [yields_walk_cons, ih]
    constructor
    · rintro ⟨entries, u, raw, read, found, dir, d, v, first, second⟩
      exact ⟨d, v, ⟨entries, u, raw, read, found, dir, first⟩, second⟩
    · rintro ⟨d, v, ⟨entries, u, raw, read, found, dir, first⟩, second⟩
      exact ⟨entries, u, raw, read, found, dir, d, v, first, second⟩

theorem yields_lookup_root {path : Bytes} (empty : components path = []) :
    Yields (TreeNavigator.lookup R tree path) s e t ↔
      Plain path ∧ e = ⟨[], .directory, 0o040000, tree⟩ ∧ t = s := by
  unfold TreeNavigator.lookup
  simp only [yields_bind, yields_lift, splitPath_ok, empty]
  constructor
  · rintro ⟨cs, u, ⟨⟨plain, rfl⟩, rfl⟩, same⟩
    exact ⟨plain, (yields_pure _ _ _ _).mp same⟩
  · rintro ⟨plain, same⟩
    exact ⟨[], s, ⟨⟨plain, rfl⟩, rfl⟩, (yields_pure _ _ _ _).mpr same⟩

theorem yields_lookup_cons {path first : Bytes} (shape : components path = first :: rest) :
    Yields (TreeNavigator.lookup R tree path) s e t ↔
      Plain path ∧ Yields (TreeNavigator.walk R tree [] first rest) s e t := by
  unfold TreeNavigator.lookup
  simp only [yields_bind, yields_lift, splitPath_ok, shape]
  constructor
  · rintro ⟨cs, u, ⟨⟨plain, rfl⟩, rfl⟩, below⟩
    exact ⟨plain, below⟩
  · rintro ⟨plain, below⟩
    exact ⟨_, s, ⟨⟨plain, rfl⟩, rfl⟩, below⟩

/-- Looking up a joined path is looking up its second part in the directory that the
    first part names. -/
theorem yields_lookup_append {p q : Bytes} (some_ : components q ≠ []) :
    Yields (TreeNavigator.lookup R tree (p ++ slash :: q)) s e t ↔
      ∃ d u, Yields (TreeNavigator.lookup R tree p) s d u ∧ d.mode.isDir = true ∧
        Yields (TreeNavigator.lookup R d.oid q) u e t := by
  obtain ⟨next, below, shapeQ⟩ := List.exists_cons_of_ne_nil some_
  have joined := components_append_slash p q
  rw [shapeQ] at joined
  cases shapeP : components p with
  | nil =>
    rw [shapeP, List.nil_append] at joined
    simp only [yields_lookup_cons joined, yields_lookup_cons shapeQ, yields_lookup_root shapeP,
      plain_append]
    constructor
    · rintro ⟨⟨plainP, plainQ⟩, walk⟩
      exact ⟨_, s, ⟨plainP, rfl, rfl⟩, rfl, plainQ, walk⟩
    · rintro ⟨d, u, ⟨plainP, rfl, rfl⟩, -, plainQ, walk⟩
      exact ⟨⟨plainP, plainQ⟩, walk⟩
  | cons first front =>
    rw [shapeP, List.cons_append] at joined
    simp only [yields_lookup_cons joined, yields_lookup_cons shapeQ, yields_lookup_cons shapeP,
      plain_append, yields_walk_append []]
    constructor
    · rintro ⟨⟨plainP, plainQ⟩, d, u, first, dir, second⟩
      exact ⟨d, u, ⟨plainP, first⟩, dir, plainQ, second⟩
    · rintro ⟨d, u, ⟨plainP, first⟩, dir, plainQ, second⟩
      exact ⟨⟨plainP, plainQ⟩, d, u, first, dir, second⟩

theorem yields_rootTree_subtree {commit : ObjectId} {path : Bytes} {root : ObjectId} :
    Yields ((Projection.subtree commit path).rootTree R) s root t ↔
      ∃ tree u, Yields (R.commitTree commit) s tree u ∧
        ∃ d, Yields (TreeNavigator.lookup R tree path) u d t ∧ d.mode.isDir = true ∧
          root = d.oid := by
  unfold Projection.rootTree
  simp only [yields_bind, yields_adapt]
  constructor
  · rintro ⟨tree, u, peeled, d, v, found, rest⟩
    by_cases dir : d.mode.isDir = true
    · simp only [dir, if_true] at rest
      obtain ⟨rfl, rfl⟩ := (yields_pure _ _ _ _).mp rest
      exact ⟨tree, u, peeled, d, found, dir, rfl⟩
    · simp only [dir, Bool.false_eq_true, if_false] at rest
      exact absurd rest (yields_throw _ _ _ _)
  · rintro ⟨tree, u, peeled, d, found, dir, rfl⟩
    refine ⟨tree, u, peeled, d, t, found, ?_⟩
    simp only [dir, if_true]
    exact (yields_pure _ _ _ _).mpr ⟨rfl, rfl⟩

theorem yields_lookup_new {projection : Projection} {path : Bytes} {found : ResolvedEntry} :
    Yields (projection.lookup R .new path) s found t ↔
      ∃ root u, Yields (projection.rootTree R) s root u ∧
        ∃ e, Yields (TreeNavigator.lookup R root path) u e t ∧ found = .tree e := by
  have clear : Projection.shadowing .new path = none := by
    unfold Projection.shadowing
    split <;> rfl
  unfold Projection.lookup
  simp only [clear, yields_bind, yields_pure]
  constructor
  · rintro ⟨root, u, rooted, e, v, hit, rfl, rfl⟩
    exact ⟨root, u, rooted, e, hit, rfl⟩
  · rintro ⟨root, u, rooted, e, hit, rfl⟩
    exact ⟨root, u, rooted, e, t, hit, rfl, rfl⟩

/-- A subtree shows what the commit shows below the subtree's path, and the subtree of a
    subtree is the subtree at the joined path. -/
theorem subtree_composes (R : StoreHandle (StateM σ)) (s : σ) (commit : ObjectId) {p q : Bytes}
    (some_ : components q ≠ []) :
    (∀ found t, Yields ((Projection.subtree commit p).lookup R .new q) s found t ↔
      Yields ((Projection.commit commit).lookup R .new (p ++ slash :: q)) s found t) ∧
    ∀ e t, Yields ((Projection.subtree commit p).lookup R .new q) s (.tree e) t →
      e.mode = .directory →
      Yields ((Projection.subtree commit (p ++ slash :: q)).rootTree R) s e.oid t := by
  have peel : ∀ tree u, Yields ((Projection.commit commit).rootTree R) s tree u ↔
      Yields (R.commitTree commit) s tree u := fun tree u => yields_adapt _ _ _ _ _
  constructor
  · intro found t
    simp only [yields_lookup_new, yields_rootTree_subtree, peel, yields_lookup_append some_]
    constructor
    · rintro ⟨_, v, ⟨tree, u, peeled, d, first, dir, rfl⟩, e, second, rfl⟩
      exact ⟨tree, u, peeled, e, ⟨d, v, first, dir, second⟩, rfl⟩
    · rintro ⟨tree, u, peeled, e, ⟨d, v, first, dir, second⟩, rfl⟩
      exact ⟨_, v, ⟨tree, u, peeled, d, first, dir, rfl⟩, e, second, rfl⟩
  · intro e t hit mode
    rw [yields_rootTree_subtree]
    simp only [yields_lookup_new, yields_rootTree_subtree] at hit
    obtain ⟨_, v, ⟨tree, u, peeled, d, first, dir, rfl⟩, e', second, same⟩ := hit
    cases same
    refine ⟨tree, u, peeled, e, (yields_lookup_append some_).mpr ⟨d, v, first, dir, second⟩, ?_, rfl⟩
    rw [mode]
    rfl

end Walks

section Sample
open ProjgitTables ProjgitServing

theorem sample_subtree_composes : ∃ t,
    Yields ((Projection.commit (fixtureId 1)).lookup sampleTables.gix.handle .new (ascii "d/l"))
      sampleStore (.tree ⟨ascii "l", .symlink, 0o120000, fixtureId 5⟩) t ∧
    Yields ((Projection.subtree (fixtureId 1) (ascii "d")).lookup sampleTables.gix.handle .new
      (ascii "l")) sampleStore (.tree ⟨ascii "l", .symlink, 0o120000, fixtureId 5⟩) t := by
  have whole : Gives ((Projection.commit (fixtureId 1)).lookup sampleTables.gix.handle .new
      (ascii "d/l")).run sampleStore fun r _ =>
        r = .ok (.tree ⟨ascii "l", .symlink, 0o120000, fixtureId 5⟩) :=
    (lookup_gives sampleTables.answers sample_truthful sample_rooted
      (sample_needed .new _)).trans (sample_descent rfl)
  obtain ⟨t, yields⟩ := exists_yields whole
  have composes := subtree_composes sampleTables.gix.handle sampleStore (fixtureId 1)
    (p := ascii "d") (q := ascii "l") (by decide)
  exact ⟨t, yields, (composes.1 _ t).mpr yields⟩

end Sample
end ProjgitProjection
