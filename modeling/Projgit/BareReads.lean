import Projgit.ProjectionFs

/-!
Which trees a path resolution reads. Over a store that lacks some objects, `lookup` and
the listing of the root go exactly as over the full one while every tree they read is
resident, and stop at a missing object otherwise.
-/
namespace ProjgitServing
open Utf8Bytes SlashPath ProjgitStore ProjgitProjection ProjgitFs Stateful
variable {P F : StoreHandle Id} {resident : ObjectId → Prop} {projection : Projection}

/-- The first store holds the resident part of the second, and the projection's ref. -/
structure Short (P F : StoreHandle Id) (resident : ObjectId → Prop) (projection : Projection) :
    Prop where
  tree : ∀ oid, resident oid → P.readTree oid = F.readTree oid
  absent : ∀ oid, ¬ resident oid → P.readTree oid = throw (.missingObject oid)
  commit : ∀ oid, resident oid → P.commitTree oid = F.commitTree oid
  refs : ∀ name, projection = .ref name → P.resolveRef name = F.resolveRef name

def walkReads (F : StoreHandle Id) (tree : ObjectId) (component : Bytes) :
    List Bytes → List ObjectId
  | [] => [tree]
  | next :: rest => tree ::
    match (F.readTree tree).run.run with
    | .error _ => []
    | .ok entries =>
      match entries.find? (·.name = component) with
      | none => []
      | some raw =>
        if (TreeEntry.ofRaw raw).mode.isDir then walkReads F raw.oid next rest else []

def navigatorReads (F : StoreHandle Id) (tree : ObjectId) (path : Bytes) : List ObjectId :=
  match splitPath path with
  | .ok (first :: rest) => walkReads F tree first rest
  | _ => []

/-- The trees `root_tree` reads: those on the path of a subtree. -/
def rootReads (F : StoreHandle Id) : Projection → List ObjectId
  | .subtree oid path =>
    match (F.commitTree oid).run.run with
    | .ok tree => navigatorReads F tree path
    | .error _ => []
  | _ => []

def lookupReads (F : StoreHandle Id) (projection : Projection) (overlay : RootOverlay)
    (path : Bytes) : List ObjectId :=
  match Projection.shadowing overlay path with
  | some _ => []
  | none => rootReads F projection ++
    match (projection.rootTree F).run.run with
    | .ok root => navigatorReads F root path
    | .error _ => []

def listingReads (F : StoreHandle Id) (projection : Projection) : List ObjectId :=
  rootReads F projection ++
    match (projection.rootTree F).run.run with
    | .ok root => [root]
    | .error _ => []

def Misses {α : Type} (x : ExceptT ProjectionError Id α) : Prop :=
  ∃ oid, x = throw (.store (.missingObject oid))

/-- With all reads resident it is as on the full store, else it stops at a missing one. -/
def Follows {α : Type} (resident : ObjectId → Prop) (reads : List ObjectId)
    (x y : ExceptT ProjectionError Id α) : Prop :=
  ((∀ oid ∈ reads, resident oid) → x = y) ∧ ((∃ oid ∈ reads, ¬ resident oid) → Misses x)

theorem Follows.returned {α : Type} {reads : List ObjectId} {x y : ExceptT ProjectionError Id α}
    (follows : Follows resident reads x y) {a : α} (returned : x = pure a) : y = pure a := by
  by_cases all : ∀ oid ∈ reads, resident oid
  · rw [← follows.1 all, returned]
  · push Not at all
    obtain ⟨oid, missing⟩ := follows.2 all
    rw [returned] at missing
    cases missing

theorem misses_bind {α β : Type} {x : ExceptT ProjectionError Id α} (misses : Misses x)
    (f : α → ExceptT ProjectionError Id β) : Misses (x >>= f) := by
  obtain ⟨oid, rfl⟩ := misses
  exact ⟨oid, rfl⟩

theorem follows_same {α : Type} (x : ExceptT ProjectionError Id α) : Follows resident [] x x :=
  ⟨fun _ => rfl, fun ⟨_, among, _⟩ => absurd among List.not_mem_nil⟩

theorem follows_bind {α β : Type} {x y : ExceptT ProjectionError Id α}
    {f g : α → ExceptT ProjectionError Id β} (first second : List ObjectId)
    (head : Follows resident first x y)
    (ok : ∀ a, y = pure a → Follows resident second (f a) (g a))
    (failed : ∀ e, y = throw e → second = []) :
    Follows resident (first ++ second) (x >>= f) (y >>= g) := by
  constructor
  · intro all
    rw [head.1 fun oid among => all oid (List.mem_append_left _ among)]
    rcases value : y.run.run with e | a
    · have thrown : y = throw e := value
      rw [thrown]
      rfl
    · have returned : y = pure a := value
      rw [returned, pure_bind, pure_bind]
      exact (ok a returned).1 fun oid among => all oid (List.mem_append_right _ among)
  · rintro ⟨oid, among, gone⟩
    by_cases early : ∃ oid ∈ first, ¬ resident oid
    · exact misses_bind (head.2 early) f
    · have all : ∀ oid ∈ first, resident oid := by
        intro o inside
        by_contra not
        exact early ⟨o, inside, not⟩
      have later : oid ∈ second := by
        rcases List.mem_append.mp among with here | there
        · exact absurd (all oid here) gone
        · exact there
      rw [head.1 all]
      rcases value : y.run.run with e | a
      · rw [failed e value] at later
        cases later
      · have returned : y = pure a := value
        rw [returned, pure_bind]
        exact (ok a returned).2 ⟨oid, later, gone⟩

theorem follows_then {α β : Type} {x y : ExceptT ProjectionError Id α} {reads : List ObjectId}
    (head : Follows resident reads x y) (f : α → ExceptT ProjectionError Id β) :
    Follows resident reads (x >>= f) (y >>= f) := by
  have whole := follows_bind reads [] head (fun a _ => follows_same (f a)) fun _ _ => rfl
  rwa [List.append_nil] at whole

theorem readTree_follows (short : Short P F resident projection) (tree : ObjectId) :
    Follows resident [tree] (ExceptT.adapt .store (P.readTree tree))
      (ExceptT.adapt .store (F.readTree tree)) := by
  constructor
  · intro all
    rw [short.tree tree (all tree (by simp))]
  · rintro ⟨oid, among, gone⟩
    cases List.mem_singleton.mp among
    rw [short.absent tree gone]
    exact ⟨tree, rfl⟩

theorem adapt_eq_pure {α : Type} {x : ExceptT ObjectStoreError Id α} {a : α}
    (returned : ExceptT.adapt ProjectionError.store x = pure a) : x.run.run = .ok a := by
  have mapped : x.run.run.mapError ProjectionError.store = .ok a := returned
  cases value : x.run.run with
  | error e =>
    rw [value] at mapped
    cases mapped
  | ok b =>
    rw [value] at mapped
    cases mapped
    rfl

theorem adapt_eq_throw {α : Type} {x : ExceptT ObjectStoreError Id α} {e : ProjectionError}
    (thrown : ExceptT.adapt ProjectionError.store x = throw e) : ∃ inner, x.run.run = .error inner := by
  have mapped : x.run.run.mapError ProjectionError.store = .error e := thrown
  cases value : x.run.run with
  | error inner => exact ⟨inner, rfl⟩
  | ok b =>
    rw [value] at mapped
    cases mapped

theorem walk_follows (short : Short P F resident projection) (tree : ObjectId) (walked component : Bytes)
    (rest : List Bytes) :
    Follows resident (walkReads F tree component rest)
      (TreeNavigator.walk P tree walked component rest)
      (TreeNavigator.walk F tree walked component rest) := by
  induction rest generalizing tree walked component with
  | nil =>
    unfold TreeNavigator.walk walkReads
    exact follows_bind [tree] [] (readTree_follows short tree) (fun _ _ => follows_same _)
      fun _ _ => rfl
  | cons next rest ih =>
    unfold TreeNavigator.walk walkReads
    refine follows_bind [tree] _ (readTree_follows short tree) ?_ ?_
    · intro entries value
      rw [adapt_eq_pure value]
      cases hit : entries.find? (·.name = component) with
      | none => simpa only [hit] using follows_same _
      | some raw =>
        simp only [hit]
        by_cases dir : (TreeEntry.ofRaw raw).mode.isDir = true
        · simp only [dir, if_true]
          exact ih _ _ _
        · simp only [dir, Bool.false_eq_true, if_false]
          exact follows_same _
    · intro e thrown
      obtain ⟨inner, value⟩ := adapt_eq_throw thrown
      rw [value]

theorem navigator_follows (short : Short P F resident projection) (tree : ObjectId) (path : Bytes) :
    Follows resident (navigatorReads F tree path) (TreeNavigator.lookup P tree path)
      (TreeNavigator.lookup F tree path) := by
  unfold TreeNavigator.lookup navigatorReads
  rcases splitPath path with e | _ | ⟨first, rest⟩
  · exact follows_same _
  · exact follows_same _
  · exact walk_follows short tree [] first rest

def startsAt (F : StoreHandle Id) (projection : Projection) (c : ObjectId) : Prop :=
  projection.resolveCommit F = pure c

theorem rootTree_follows (short : Short P F resident projection) {c : ObjectId}
    (starts : startsAt F projection c) (here : resident c) :
    Follows resident (rootReads F projection) (projection.rootTree P) (projection.rootTree F) := by
  have commit := short.commit c here
  cases projection with
  | ref name =>
    have resolved : ExceptT.adapt ProjectionError.store (F.resolveRef name) = pure c := starts
    simp only [Projection.rootTree, rootReads]
    rw [short.refs name rfl, resolved, pure_bind, pure_bind, commit]
    exact follows_same _
  | commit oid =>
    cases starts
    simp only [Projection.rootTree, rootReads]
    rw [commit]
    exact follows_same _
  | subtree oid path =>
    cases starts
    simp only [Projection.rootTree, rootReads]
    rw [commit]
    refine follows_bind [] _ (follows_same _) ?_ ?_
    · intro tree value
      rw [adapt_eq_pure value]
      exact follows_then (navigator_follows short tree path) _
    · intro e thrown
      obtain ⟨inner, value⟩ := adapt_eq_throw thrown
      rw [value]

theorem lookup_follows (short : Short P F resident projection) {c : ObjectId}
    (starts : startsAt F projection c) (here : resident c) (overlay : RootOverlay) (path : Bytes) :
    Follows resident (lookupReads F projection overlay path) (projection.lookup P overlay path)
      (projection.lookup F overlay path) := by
  unfold Projection.lookup lookupReads
  cases Projection.shadowing overlay path with
  | some entry => exact follows_same _
  | none =>
    refine follows_bind _ _ (rootTree_follows short starts here) ?_ ?_
    · intro root value
      rw [value]
      exact follows_then (navigator_follows short root path) _
    · intro e thrown
      rw [thrown]
      rfl

theorem list_follows (short : Short P F resident projection) (root : ObjectId) :
    Follows resident [root] (ExceptT.adapt .store (TreeNavigator.list P root))
      (ExceptT.adapt .store (TreeNavigator.list F root)) := by
  unfold TreeNavigator.list
  constructor
  · intro all
    rw [short.tree root (all root (by simp))]
  · rintro ⟨oid, among, gone⟩
    cases List.mem_singleton.mp among
    rw [short.absent root gone]
    exact ⟨root, rfl⟩

theorem readRoot_follows (short : Short P F resident projection) {c : ObjectId}
    (starts : startsAt F projection c) (here : resident c) (overlay : RootOverlay) :
    Follows resident (listingReads F projection) (projection.readRoot P overlay)
      (projection.readRoot F overlay) := by
  unfold Projection.readRoot listingReads
  refine follows_bind _ _ (rootTree_follows short starts here) ?_ ?_
  · intro root value
    rw [value]
    exact follows_then (list_follows short root) _
  · intro e thrown
    rw [thrown]
    rfl

end ProjgitServing
