import Projgit.MergedMount

/-!
A mount of a ref beside a mount of the commit the ref named when it was made. Only
`root_tree` tells the two apart: the ref's mount resolves the ref again at every call
that starts from the root. As long as the ref then names a commit with the same tree,
the two answer alike and stay in the same state.
-/
namespace ProjgitServing
open Utf8Bytes SlashPath ProjgitStore ProjgitProjection ProjgitFs ProjgitMerged Stateful LabelledRuns
variable {ω : Type}

def answers (M : Mount ω) : FsState ω → List (FsAction ω) → List Answer
  | _, [] => []
  | s, action :: rest => answer M s action :: ((fsStep M s action).map fun t => answers M t rest).getD []

def projecting (M : Mount ω) (projection : Projection) : Mount ω := { M with projection }

/-- The ref names a commit, and its tree is the tree of `c`. -/
def Unmoved (G : Gix ω) (name : Bytes) (c : ObjectId) (w : ω) : Prop :=
  ∃ now, G.findReference w name = .ok now ∧ commitTreeAt G w now = commitTreeAt G w c

/-- Where the call resolves the root tree: a lookup that no overlay entry shadows, and a
    listing of the root. Every other call is free. -/
def Steady (M : Mount ω) (name : Bytes) (c : ObjectId) (s : FsState ω) : FsAction ω → Prop
  | .lookup parent child => ∀ path, ((parentPath parent : FsM ω Bytes).run.run s).1 = .ok path →
      Projection.shadowing M.overlay (joinPath path child) = none →
        Unmoved M.gix name c s.store.world
  | .readdir inode offset => inode = rootInode → offset = 0 → Unmoved M.gix name c s.store.world
  | _ => True

section Congruence
variable {σ ε α β : Type}

theorem run_bind_congr {x y : ExceptT ε (StateM σ) α} {f g : α → ExceptT ε (StateM σ) β} {s : σ}
    (same : x.run.run s = y.run.run s)
    (rest : ∀ a t, x.run.run s = (.ok a, t) → (f a).run.run t = (g a).run.run t) :
    (x >>= f).run.run s = (y >>= g).run.run s := by
  rw [ExceptT.run_bind, ExceptT.run_bind, StateT.run_bind, StateT.run_bind, ← same]
  rcases value : x.run.run s with ⟨e | a, t⟩
  · rfl
  · exact rest a t value

end Congruence

theorem rootTree_unmoved {G : Gix ω} {name : Bytes} {c : ObjectId} {s : Store ω}
    (unmoved : Unmoved G name c s.world) :
    ((Projection.ref name).rootTree (m := StateM (Store ω)) G.handle).run.run s =
      ((Projection.commit c).rootTree (m := StateM (Store ω)) G.handle).run.run s := by
  obtain ⟨now, resolved, same⟩ := unmoved
  have asked : Gives (ObjectStore.resolveRef (m := StateM (Store ω)) G name).run s fun r t =>
      r = .ok now ∧ t = s := by
    unfold ObjectStore.resolveRef
    rw [gives_ask, resolved]
    exact ⟨rfl, rfl⟩
  have left : Gives ((Projection.ref name).rootTree (m := StateM (Store ω)) G.handle).run s
      fun r t => r = (commitTreeAt G s.world c).mapError ProjectionError.store ∧ t = s := by
    unfold Projection.rootTree
    rw [gives_run_bind, gives_run_adapt]
    apply asked.mono
    intro _ _ given
    obtain ⟨rfl, rfl⟩ := given
    simp only [Except.mapError, sequel_ok, gives_run_adapt]
    apply (commitTree_gives G now _).mono
    intro _ _ given
    obtain ⟨rfl, rfl⟩ := given
    rw [same]
    exact ⟨rfl, rfl⟩
  have right : Gives ((Projection.commit c).rootTree (m := StateM (Store ω)) G.handle).run s
      fun r t => r = (commitTreeAt G s.world c).mapError ProjectionError.store ∧ t = s := by
    unfold Projection.rootTree
    rw [gives_run_adapt]
    apply (commitTree_gives G c s).mono
    intro _ _ given
    obtain ⟨rfl, rfl⟩ := given
    exact ⟨rfl, rfl⟩
  exact Prod.ext (left.1.trans right.1.symm) (left.2.trans right.2.symm)

theorem lookup_unmoved {G : Gix ω} {name path : Bytes} {c : ObjectId} {overlay : RootOverlay}
    {s : Store ω} (steady : Projection.shadowing overlay path = none → Unmoved G name c s.world) :
    ((Projection.ref name).lookup (m := StateM (Store ω)) G.handle overlay path).run.run s =
      ((Projection.commit c).lookup (m := StateM (Store ω)) G.handle overlay path).run.run s := by
  unfold Projection.lookup
  cases shadow : Projection.shadowing overlay path with
  | some entry => rfl
  | none => exact run_bind_congr (rootTree_unmoved (steady shadow)) fun _ _ _ => rfl

theorem readRoot_unmoved {G : Gix ω} {name : Bytes} {c : ObjectId} {overlay : RootOverlay}
    {s : Store ω} (unmoved : Unmoved G name c s.world) :
    ((Projection.ref name).readRoot (m := StateM (Store ω)) G.handle overlay).run.run s =
      ((Projection.commit c).readRoot (m := StateM (Store ω)) G.handle overlay).run.run s := by
  unfold Projection.readRoot
  exact run_bind_congr (rootTree_unmoved unmoved) fun _ _ _ => rfl

section Calls
variable {M : Mount ω} {name : Bytes} {c : ObjectId} {s : FsState ω}

theorem onStoreOr_congr {ε α : Type} {translate : ε → FsError}
    {x y : ExceptT ε (StateM (Store ω)) α} {s : FsState ω}
    (same : x.run.run s.store = y.run.run s.store) :
    (onStoreOr translate x).run.run s = (onStoreOr translate y).run.run s := by
  change ((x.run.run s.store).1.mapError translate, { s with store := (x.run.run s.store).2 }) =
    ((y.run.run s.store).1.mapError translate, { s with store := (y.run.run s.store).2 })
  rw [same]

theorem listChildren_projecting (M : Mount ω) (projection : Projection) (path : Bytes)
    (pairs : List (Bytes × ResolvedEntry)) :
    (projecting M projection).listChildren path pairs = M.listChildren path pairs := by
  induction pairs with
  | nil => rfl
  | cons named rest ih =>
    obtain ⟨key, found⟩ := named
    unfold Mount.listChildren
    rw [ih]
    rfl

theorem lookup_steady (isRef : M.projection = .ref name) {parent : UInt64} {child : Bytes}
    (steady : Steady M name c s (.lookup parent child)) :
    (M.lookup parent child).run.run s =
      ((projecting M (.commit c)).lookup parent child).run.run s := by
  unfold Mount.lookup
  refine run_bind_congr rfl fun path t value => ?_
  have same : t = s := by
    have state : ((parentPath parent : FsM ω Bytes).run.run s).2 = s := parentPath_state parent s
    rw [value] at state
    exact state
  subst same
  refine run_bind_congr ?_ fun _ _ _ => rfl
  rw [isRef]
  refine onStoreOr_congr (lookup_unmoved fun shadow => ?_)
  exact steady path (by rw [value]) shadow

theorem readdir_steady (isRef : M.projection = .ref name) {inode : UInt64} {offset : Nat}
    (steady : Steady M name c s (.readdir inode offset)) :
    (M.readdir inode offset).run.run s =
      ((projecting M (.commit c)).readdir inode offset).run.run s := by
  unfold Mount.readdir
  simp only [listChildren_projecting]
  by_cases later : 0 < offset
  · simp only [later, if_true]
  · simp only [later, if_false]
    by_cases isRoot : inode = rootInode
    · simp only [isRoot, if_true]
      refine run_bind_congr ?_ fun _ _ _ => rfl
      rw [isRef]
      exact onStoreOr_congr (readRoot_unmoved (steady isRoot (by omega)))
    · simp only [isRoot, if_false]
      rfl

theorem warmHeaders_projecting (M : Mount ω) (projection : Projection)
    (pieces : List (List ObjectId)) :
    Worker.warmHeaders (projecting M projection) pieces = Worker.warmHeaders M pieces := by
  induction pieces with
  | nil => rfl
  | cons chunk rest ih =>
    unfold Worker.warmHeaders
    rw [ih]
    rfl

theorem blobsUnderCap_projecting (M : Mount ω) (projection : Projection) (oids : List ObjectId) :
    Worker.blobsUnderCap (projecting M projection) oids = Worker.blobsUnderCap M oids := by
  induction oids with
  | nil => rfl
  | cons oid rest ih =>
    unfold Worker.blobsUnderCap
    rw [ih]
    rfl

theorem warmBlobs_projecting (M : Mount ω) (projection : Projection)
    (pieces : List (List ObjectId)) :
    Worker.warmBlobs (projecting M projection) pieces = Worker.warmBlobs M pieces := by
  induction pieces with
  | nil => rfl
  | cons chunk rest ih =>
    unfold Worker.warmBlobs
    rw [ih, blobsUnderCap_projecting]
    rfl

theorem work_projecting (M : Mount ω) (projection : Projection) :
    Worker.work (projecting M projection) = Worker.work M := by
  unfold Worker.work
  simp only [warmHeaders_projecting, warmBlobs_projecting]

theorem step_steady (isRef : M.projection = .ref name) {action : FsAction ω}
    (steady : Steady M name c s action) :
    answer M s action = answer (projecting M (.commit c)) s action ∧
      fsStep M s action = fsStep (projecting M (.commit c)) s action := by
  cases action with
  | lookup parent child =>
    simp only [answer, fsStep, lookup_steady isRef steady, and_self]
  | getattr inode => exact ⟨rfl, rfl⟩
  | readdir inode offset =>
    simp only [answer, fsStep, readdir_steady isRef steady, and_self]
  | read inode offset size => exact ⟨rfl, rfl⟩
  | readlink inode => exact ⟨rfl, rfl⟩
  | work => exact ⟨rfl, by simp only [fsStep, work_projecting]⟩
  | world w => exact ⟨rfl, rfl⟩

theorem run_steady (isRef : M.projection = .ref name) {actions : List (FsAction ω)}
    (steady : Meets (fsStep M) (Steady M name c) s actions) :
    answers M s actions = answers (projecting M (.commit c)) s actions := by
  induction actions generalizing s with
  | nil => rfl
  | cons action rest ih =>
    obtain ⟨now, later⟩ := steady
    obtain ⟨same, next⟩ := step_steady isRef now
    unfold answers
    rw [same, ← next]
    cases stepped : fsStep M s action with
    | none => rfl
    | some t =>
      simp only [Option.map_some, Option.getD_some]
      rw [ih (later t stepped)]

end Calls
theorem ref_mount_shows_commit {spec : MountSpec ω} {name : Bytes} {c : ObjectId} {store : Store ω}
    {M : Mount ω} {start : FsState ω} {actions : List (FsAction ω)}
    (isRef : spec.projection = .ref name)
    (named : spec.gix.findReference store.world name = .ok c)
    (built : (spec.new.run.run store).1 = .ok (M, start))
    (steady : Meets (fsStep M) (Steady M name c) start actions) :
    (({ spec with projection := .commit c } : MountSpec ω).new.run.run store).1 =
        .ok (projecting M (.commit c), start) ∧
      answers M start actions = answers (projecting M (.commit c)) start actions := by
  have resolved : resolveAt spec.gix store.world spec.projection = .ok c := by
    rw [isRef, resolveAt, named]
    rfl
  have ofRef := (new_gives spec store).symm.trans built
  have ofCommit := new_gives { spec with projection := .commit c } store
  rw [resolved] at ofRef
  rcases time : commitTimeAt spec.gix store.world c with e | seconds
  · simp [Except.bind, time, Except.mapError, Except.map] at ofRef
  · simp only [Except.bind, time, Except.mapError, Except.map, Except.ok.injEq, Prod.mk.injEq] at ofRef
    obtain ⟨rfl, rfl⟩ := ofRef
    refine ⟨ofCommit.trans ?_, run_steady isRef steady⟩
    change ((commitTimeAt spec.gix store.world c).mapError _).map _ = _
    rw [time]
    rfl

section Sample
open ProjgitTables

def refTables : Tables where
  commits := [(fixtureId 1, fixtureId 2, 5), (fixtureId 6, fixtureId 3, 5)]
  trees := [(fixtureId 2, [⟨ascii "a", 0o100644, fixtureId 4⟩]),
    (fixtureId 3, [⟨ascii "b", 0o100644, fixtureId 4⟩])]
  blobs := [(fixtureId 4, ascii "hi\n")]

def mainRef : Bytes := ascii "refs/heads/main"

def pointingAt (oid : ObjectId) : World := ⟨[], [(mainRef, oid)]⟩

def refSpec : MountSpec World := refTables.mountSpec (.ref mainRef) NoopFetcher

def refStore : Store World := .withCapacities 4 64 64 4 (pointingAt (fixtureId 1))

theorem ref_named : refSpec.gix.findReference refStore.world mainRef = .ok (fixtureId 1) := by
  simp [refSpec, Tables.mountSpec, Tables.gix, refStore, Store.withCapacities, pointingAt]

theorem ref_built : (refSpec.new.run.run refStore).1 = .ok (refSpec.mount 5, refSpec.start refStore) := by
  have resolved : resolveAt refTables.gix refStore.world (.ref mainRef) = .ok (fixtureId 1) := by
    have named : refTables.gix.findReference refStore.world mainRef = .ok (fixtureId 1) := ref_named
    rw [resolveAt, named]
    rfl
  exact Tables.new_built (c := (fixtureId 2, 5)) (by decide +kernel) (by decide +kernel) NoopFetcher
    resolved rfl

/-- Once the ref has moved, the file of the mounted commit is gone. -/
theorem moved_ref_shown :
    refSpec.gix.findReference refStore.world mainRef = .ok (fixtureId 1) ∧
    (refSpec.new.run.run refStore).1 = .ok (refSpec.mount 5, refSpec.start refStore) ∧
    answers (refSpec.mount 5) (refSpec.start refStore)
        [.world (pointingAt (fixtureId 6)), .lookup rootInode (ascii "a")] ≠
      answers (projecting (refSpec.mount 5) (.commit (fixtureId 1))) (refSpec.start refStore)
        [.world (pointingAt (fixtureId 6)), .lookup rootInode (ascii "a")] := by
  refine ⟨ref_named, ref_built, fun same => ?_⟩
  have seen : (answers (refSpec.mount 5) (refSpec.start refStore)
        [.world (pointingAt (fixtureId 6)), .lookup rootInode (ascii "a")]).map Answer.succeeds ≠
      (answers (projecting (refSpec.mount 5) (.commit (fixtureId 1))) (refSpec.start refStore)
        [.world (pointingAt (fixtureId 6)), .lookup rootInode (ascii "a")]).map Answer.succeeds := by
    decide +kernel
  exact seen (congrArg (List.map Answer.succeeds) same)

/-- The overlay does not care where the ref is, and the tree only where it is when asked. -/
theorem returned_ref_shows_commit :
    answers (refSpec.mount 5) (refSpec.start refStore)
        [.world (pointingAt (fixtureId 6)), .lookup rootInode (ascii ".git"),
          .world (pointingAt (fixtureId 1)), .lookup rootInode (ascii "a")] =
      answers (projecting (refSpec.mount 5) (.commit (fixtureId 1))) (refSpec.start refStore)
        [.world (pointingAt (fixtureId 6)), .lookup rootInode (ascii ".git"),
          .world (pointingAt (fixtureId 1)), .lookup rootInode (ascii "a")] := by
  have shadowed : Projection.shadowing dotGit (joinPath [] (ascii ".git")) ≠ none := by
    have there : (Projection.shadowing dotGit (joinPath [] (ascii ".git"))).isSome = true := by
      decide +kernel
    exact Option.isSome_iff_ne_none.mp there
  have steady : Meets (fsStep (refSpec.mount 5)) (Steady (refSpec.mount 5) mainRef (fixtureId 1))
      (refSpec.start refStore)
      [.world (pointingAt (fixtureId 6)), .lookup rootInode (ascii ".git"),
        .world (pointingAt (fixtureId 1)), .lookup rootInode (ascii "a")] := by
    refine ⟨trivial, ?_⟩
    intro _ given
    obtain ⟨⟩ := given
    refine ⟨?_, ?_⟩
    · intro path atRoot clear
      cases atRoot
      exact absurd clear shadowed
    intro _ given
    obtain ⟨⟩ := given
    refine ⟨trivial, ?_⟩
    intro _ given
    obtain ⟨⟩ := given
    refine ⟨?_, fun _ _ => trivial⟩
    intro path atRoot clear
    exact ⟨fixtureId 1, ref_named, rfl⟩
  exact (ref_mount_shows_commit rfl ref_named ref_built steady).2

end Sample
end ProjgitServing
