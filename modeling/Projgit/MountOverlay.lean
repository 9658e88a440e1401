import Projgit.RefProjection
import Projgit.RefVisibility
import Projgit.Registry

/-!
What a mount is asked to show and the `.git/` it is given: the projection that the arguments
name (`build_projection` of `main.rs`) and the overlay of the root, which the command line and
the daemon build alike. Git reads that overlay the way it reads any `.git/`: it finds the
projected commit, and an index of the tree that the root of the mount lists.
-/
namespace ProjgitMount
open Utf8Bytes ProjgitStore ProjgitProjection ProjgitServing SlashPath Stateful
open ProjgitProtocol ProjgitRegistry

/-- What the builders meet outside: the full name of the reference that gix finds, the index it
    writes of a tree, `canonicalize`, and `ObjectId::from_hex`. Errors are texts, with the chain
    below them. -/
structure Outside (ω : Type) where
  gix : Gix ω
  referenceName : ω → Bytes → Except String Bytes
  writeIndex : ω → ObjectId → Except String Bytes
  canonicalize : ω → PathBuf → Except String PathBuf
  fromHex : String → Except String ObjectId

/-- The names gix gives to references have proper components: it checks every name it reads. -/
def Outside.NamesProperly {ω : Type} (out : Outside ω) : Prop :=
  ∀ w name full, out.referenceName w name = .ok full → ∀ c ∈ split full, Component c

/-- Of `MountArgs`, what the projection and the overlay depend on. -/
structure MountArgs where
  ref : Option String
  commit : Option String
  subtree : Option String
  noDotgit : Bool

abbrev Build (ω : Type) := ExceptT Failure (StateM (Store ω))

variable {ω : Type}

def context {α : Type} (message : String) (x : Build ω α) : Build ω α :=
  ExceptT.adapt (Failure.context message) x

def asked {α : Type} (answer : Except String α) : Build ω α :=
  ExceptT.mk (pure (answer.mapError Failure.error))

def orPanic {α : Type} : Option α → Build ω α
  | some a => return a
  | none => throw .panic

namespace Outside
variable (out : Outside ω)

def resolveRef (name : Bytes) : Build ω ObjectId :=
  ExceptT.adapt (fun e => .error e.display) (out.gix.handle.resolveRef name)

def baseProjection (args : MountArgs) : Build ω Projection :=
  match args.ref, args.commit with
  -- clap rejects this combination.
  | some _, some _ => throw .panic
  | none, some hex => Projection.commit <$> asked ((out.fromHex hex).mapError fun e =>
      "invalid commit OID `" ++ hex ++ "`: " ++ e)
  | some name, none => return .ref (textBytes name)
  | none, none => return .ref headName

/-- `Projection::Subtree` takes a commit: a ref is peeled once, here. -/
def peelBase : Projection → Build ω ObjectId
  | .commit oid => return oid
  | .ref name =>
    context ("resolving ref `" ++ (pathStr name).getD "" ++ "` for --subtree")
      (out.resolveRef name)
  | .subtree _ _ => throw .panic

def foldSubtree (path : String) (base : Projection) : Build ω Projection :=
  let trimmed := trim (textBytes path)
  if trimmed = [] then return base
  else do
    let commit ← out.peelBase base
    return .subtree commit trimmed

def buildProjection (args : MountArgs) : Build ω Projection := do
  let base ← out.baseProjection args
  match args.subtree with
  | none => return base
  | some path => out.foldSubtree path base

def resolveText : ProjectionError → String
  | .store e => e.display
  | .notFound _ _ | .notADirectory _ _ | .invalidPath _ _ => ""

/-- The cause of an `IndexBuildError` is printed twice: in its own text and below it. -/
def indexStoreText (e : ObjectStoreError) : String :=
  "object store error while building index: " ++ e.display ++ ": " ++ e.display

def buildIndexBytes (commitOid : ObjectId) : Build ω Bytes := do
  let tree ← ExceptT.adapt (fun e => .error (indexStoreText e))
    (out.gix.handle.commitTree commitOid)
  asked (out.writeIndex (← get).world tree)

def tryResolveBranchFullName (w : ω) (refname : Bytes) : Option Bytes :=
  if refname = headName then none
  else match out.referenceName w refname with
    | .error _ => none
    | .ok full => if (pathStr full).isSome ∧ refsHeads <+: full then some full else none

def branchOf (w : ω) : Projection → Option Bytes
  | .ref name => out.tryResolveBranchFullName w name
  | .commit _ | .subtree _ _ => none

def applyA2IfBranch (projection : Projection) (commitOid : ObjectId) (overlay : RootOverlay) :
    Build ω RootOverlay := do
  match out.branchOf (← get).world projection with
  | some full => orPanic (applyA2RefVisibility full commitOid overlay)
  | none => return overlay

def a1PlusFor (commitOid : ObjectId) (objectsDir : PathBuf) : Build ω RootOverlay := do
  let index ← out.buildIndexBytes commitOid
  orPanic (a1PlusOverlay commitOid objectsDir index)

/-- A1+, and A2 on top of it where there is a branch. -/
def dotgitOf (projection : Projection) (commitOid : ObjectId) (objectsDir : PathBuf) :
    Build ω RootOverlay := do
  let overlay ← context "building A1+ overlay" (out.a1PlusFor commitOid objectsDir)
  out.applyA2IfBranch projection commitOid overlay

def dotgitFor (projection : Projection) (gitDir : PathBuf) : Build ω RootOverlay := do
  let commitOid ← context "resolving projection commit for .git/ synthesis"
    (ExceptT.adapt (.error ∘ resolveText) (projection.resolveCommit out.gix.handle))
  let objectsDir := join gitDir (pathOf "objects")
  let objectsDir ← context ("canonicalizing " ++ displayPath objectsDir) do
    asked (out.canonicalize (← get).world objectsDir)
  out.dotgitOf projection commitOid objectsDir

def overlayFor (noDotgit : Bool) (projection : Projection) (gitDir : PathBuf) :
    Build ω RootOverlay :=
  if noDotgit then return .new
  else match projection with
    | .subtree _ _ => return .new
    | .ref _ | .commit _ => out.dotgitFor projection gitDir

def buildRootOverlay (args : MountArgs) : Projection → PathBuf → Build ω RootOverlay :=
  out.overlayFor args.noDotgit

/-- Of `mount-multi`. -/
def buildOverlayNoSubtree (noDotgit : Bool) : Projection → PathBuf → Build ω RootOverlay :=
  out.overlayFor noDotgit

/-- Of the daemon. -/
def buildOverlay (noDotgit : Bool) : Projection → PathBuf → Build ω RootOverlay :=
  out.overlayFor noDotgit

/-- The steps of `cmd_mount` from the open store to the provider. -/
def mountView (args : MountArgs) (gitDir : PathBuf) : Build ω (Projection × RootOverlay) := do
  let projection ← out.buildProjection args
  let overlay ← out.buildRootOverlay args projection gitDir
  return (projection, overlay)

end Outside

/-! ### What its files hold -/

/-- A file below `.git`, where paths resolve by `look`. -/
def dotgitFile (look : Bytes → Except ProjectionError ResolvedEntry) (path : Bytes) :
    Option Bytes :=
  match look (dotgitName ++ slash :: path) with
  | .ok (.synthetic _ (.file content _)) => some content
  | _ => none

/-- `HEAD` is the id of the commit, or names the branch whose loose reference is. -/
def HeadHolds (branch : Option Bytes) (commitOid : ObjectId) (file : Bytes → Option Bytes) :
    Prop :=
  match branch with
  | none => file headName = some (oidLine commitOid)
  | some full =>
    file headName = some (symbolicHead full) ∧ file full = some (oidLine commitOid)

def alternatesPath : Bytes := SlashPath.join [objectsName, infoName, alternatesName]

/-- The files below `.git` are those of a repository on this commit, with this index, that
    borrows its objects from this directory. -/
structure OnCommit (branch : Option Bytes) (commitOid : ObjectId) (objectsDir index : Bytes)
    (file : Bytes → Option Bytes) : Prop where
  head : HeadHolds branch commitOid file
  index : file indexName = some index
  alternates : file alternatesPath = some (fromUtf8Lossy objectsDir ++ [10])
  config : file configName = some a1Config

section
variable {σ : Type} {projection : Projection} {store : StoreHandle (StateM σ)} {u : σ}
  {overlay after : RootOverlay} {commitOid : ObjectId} {objectsDir index content : Bytes}

theorem dotgitFile_of_node {path : Bytes} {modeRaw : UInt16} (has : (overlay.get dotgitName).isSome)
    (there : nodeAt overlay.tree (dotgitName :: components path) = some (.file content modeRaw)) :
    dotgitFile (resolved projection store u overlay) path = some content := by
  have first : components dotgitName = [dotgitName] := by decide
  have shape : components (dotgitName ++ slash :: path) = dotgitName :: components path := by
    rw [components_append_slash, first]
    rfl
  have found := (resolved_shadowed projection store u shape has _).mpr ⟨_, shape ▸ there, rfl⟩
  rw [dotgitFile, found]

theorem dotgitFile_kept {branch : List Bytes} {path : Bytes}
    (visible : RefVisible commitOid branch (resolved projection store u overlay)
      (resolved projection store u after))
    (other : components (dotgitName ++ slash :: path) ≠ headPath)
    (there : dotgitFile (resolved projection store u overlay) path = some content) :
    dotgitFile (resolved projection store u after) path = some content := by
  unfold dotgitFile at there
  split at there
  · rename_i name bytes modeRaw found
    have kept := visible.others _ _ other found (by rintro ⟨_, _, impossible⟩; cases impossible)
    rw [dotgitFile, kept]
    exact there
  · cases there

theorem a1Plus_headed (built : a1PlusOverlay commitOid objectsDir index = some overlay) :
    Headed overlay := by
  obtain ⟨overlay', same, headed⟩ := dotgitOverlay_headed commitOid objectsDir (some index)
  cases built.symm.trans same
  exact headed

theorem a1Plus_onCommit (built : a1PlusOverlay commitOid objectsDir index = some overlay) :
    OnCommit none commitOid objectsDir index
      (dotgitFile (resolved projection store u overlay)) := by
  have has := (a1Plus_headed built).has
  cases built
  have head : components headName = [headName] := by decide
  have index_ : components indexName = [indexName] := by decide
  have config : components configName = [configName] := by decide
  have alternates : components alternatesPath = [objectsName, infoName, alternatesName] := by decide
  exact ⟨dotgitFile_of_node has (by rw [head]; rfl), dotgitFile_of_node has (by rw [index_]; rfl),
    dotgitFile_of_node has (by rw [alternates]; rfl), dotgitFile_of_node has (by rw [config]; rfl)⟩

theorem branch_of_full {full : Bytes} (branch : refsHeads <+: full)
    (proper : ∀ c ∈ split full, Component c) :
    ∃ names, names ≠ [] ∧ (∀ c ∈ names, Component c) ∧ full = branchName names := by
  obtain ⟨rest, rfl⟩ := branch
  refine ⟨split rest, List.splitOn_ne_nil _ _, fun c member => ?_, ?_⟩
  · have whole : refsHeads ++ rest = refsName ++ slash :: (headsName ++ slash :: rest) := by
      simp [refsHeads]
    rw [whole, split_append_slash, split_append_slash] at proper
    exact proper c (List.mem_append_right _ (List.mem_append_right _ member))
  · rw [branchName, join_split]

theorem a2_onCommit {names : List Bytes} (some_ : names ≠ []) (proper : ∀ c ∈ names, Component c)
    (built : a1PlusOverlay commitOid objectsDir index = some overlay) :
    ∃ after, applyA2RefVisibility (branchName names) commitOid overlay = some after ∧
      ∀ {σ : Type} (projection : Projection) (store : StoreHandle (StateM σ)) (u : σ),
        OnCommit (some (branchName names)) commitOid objectsDir index
          (dotgitFile (resolved projection store u after)) := by
  obtain ⟨middle, after, spliced, applied⟩ :=
    exists_spliced (a1Plus_headed built) commitOid proper some_
  refine ⟨after, applied, fun projection store u => ?_⟩
  have visible := spliced.visible projection store u proper some_
  have before : OnCommit none commitOid objectsDir index
      (dotgitFile (resolved projection store u overlay)) := a1Plus_onCommit built
  obtain ⟨name, ref⟩ := visible.ref
  have headFile : dotgitFile (resolved projection store u after) headName =
      some (symbolicHead (branchName names)) := by
    rw [dotgitFile, visible.head]
  have refFile : dotgitFile (resolved projection store u after) (branchName names) =
      some (oidLine commitOid) := by
    rw [dotgitFile, ref]
  exact ⟨⟨headFile, refFile⟩, dotgitFile_kept visible (by decide) before.index,
    dotgitFile_kept visible (by decide) before.alternates,
    dotgitFile_kept visible (by decide) before.config⟩

end

/-! ### What a build answers -/

section
variable {out : Outside ω} {s t : Store ω} {α β : Type}

@[simp] theorem yields_context (message : String) (x : Build ω α) (a : α) :
    Yields (context message x) s a t ↔ Yields x s a t := yields_adapt x _ s t a

@[simp] theorem yields_asked (answer : Except String α) (a : α) :
    Yields (asked answer : Build ω α) s a t ↔ answer = .ok a ∧ t = s := by
  rw [asked, yields_lift]
  cases answer <;> simp [Except.mapError]

@[simp] theorem yields_orPanic (o : Option α) (a : α) :
    Yields (orPanic o : Build ω α) s a t ↔ o = some a ∧ t = s := by
  cases o <;> simp [orPanic, eq_comm]

@[simp] theorem yields_get (u : Store ω) :
    Yields (get : Build ω (Store ω)) s u t ↔ u = s ∧ t = s := by
  constructor
  · intro yields
    cases yields
    exact ⟨rfl, rfl⟩
  · rintro ⟨rfl, rfl⟩
    rfl

theorem yields_commitTree (G : Gix ω) (oid tree : ObjectId) :
    Yields (G.handle.commitTree oid : ExceptT ObjectStoreError (StateM (Store ω)) ObjectId)
      s tree t ↔ commitTreeAt G s.world oid = .ok tree ∧ t = s := by
  obtain ⟨answer, same⟩ := commitTree_gives G oid s
  constructor
  · intro yields
    exact ⟨answer.symm.trans (congrArg Prod.fst yields), (congrArg Prod.snd yields).symm.trans same⟩
  · rintro ⟨found, rfl⟩
    exact Prod.ext (answer.trans found) same

theorem yields_resolveCommit (G : Gix ω) (projection : Projection) (oid : ObjectId) :
    Yields (projection.resolveCommit (G.handle : StoreHandle (StateM (Store ω)))) s oid t ↔
      resolveAt G s.world projection = .ok oid ∧ t = s := by
  obtain ⟨answer, same⟩ := resolveCommit_gives G projection s
  constructor
  · intro yields
    exact ⟨answer.symm.trans (congrArg Prod.fst yields), (congrArg Prod.snd yields).symm.trans same⟩
  · rintro ⟨found, rfl⟩
    exact Prod.ext (answer.trans found) same

def Calm (x : Build ω α) (s : Store ω) : Prop := (x.run.run s).1 ≠ .error .panic

theorem calm_pure (a : α) : Calm (pure a : Build ω α) s := by
  intro crashed
  cases crashed

theorem calm_bind {x : Build ω α} {f : α → Build ω β} (first : Calm x s)
    (rest : ∀ a t, Yields x s a t → Calm (f a) t) : Calm (x >>= f) s := by
  rcases ran : x.run.run s with ⟨e | a, t⟩
  · have failed : ((x >>= f).run.run s).1 = .error e := by
      rw [ExceptT.run_bind, StateT.run_bind, ran]
      rfl
    rw [Calm, failed]
    rw [Calm, ran] at first
    exact fun same => first (congrArg _ (Except.error.inj same))
  · have went : ((x >>= f).run.run s).1 = ((f a).run.run t).1 := by
      rw [ExceptT.run_bind, StateT.run_bind, ran]
      rfl
    rw [Calm, went]
    exact rest a t ran

theorem calm_adapt {ε : Type} {x : ExceptT ε (StateM (Store ω)) α} {f : ε → Failure}
    (calm : ∀ e, (x.run.run s).1 = .error e → f e ≠ .panic) : Calm (ExceptT.adapt f x) s := by
  change ((x.run.run s).1.mapError f) ≠ _
  rcases ran : (x.run.run s).1 with e | a
  · exact fun same => calm e ran (Except.error.inj same)
  · intro crashed
    cases crashed

theorem calm_context {message : String} {x : Build ω α} (calm : Calm x s) :
    Calm (context message x) s := by
  refine calm_adapt fun e failed => ?_
  cases e with
  | error text => simp [Failure.context]
  | panic => exact absurd failed calm

theorem calm_asked (answer : Except String α) : Calm (asked answer : Build ω α) s := by
  cases answer <;> (intro crashed; cases crashed)

theorem calm_orPanic {o : Option α} (some_ : o.isSome) : Calm (orPanic o : Build ω α) s := by
  obtain ⟨a, rfl⟩ := Option.isSome_iff_exists.mp some_
  exact calm_pure a

end

/-! ### The overlay of a mount -/

section
variable {out : Outside ω} {s t : Store ω} {projection : Projection} {commitOid : ObjectId}
  {objectsDir : PathBuf} {overlay : RootOverlay}

theorem tryResolve_cases {w : ω} {name full : Bytes}
    (found : out.tryResolveBranchFullName w name = some full) :
    refsHeads <+: full ∧ out.referenceName w name = .ok full := by
  unfold Outside.tryResolveBranchFullName at found
  split at found
  · cases found
  · split at found
    · cases found
    · rename_i full' named
      split at found
      · cases found
        exact ⟨(‹_› : _ ∧ _).2, named⟩
      · cases found

theorem branchOf_proper (names : out.NamesProperly) {w : ω} {full : Bytes}
    (found : out.branchOf w projection = some full) :
    ∃ branch, branch ≠ [] ∧ (∀ c ∈ branch, Component c) ∧ full = branchName branch := by
  cases projection with
  | commit oid => cases found
  | subtree oid path => cases found
  | ref name =>
    obtain ⟨heads, named⟩ := tryResolve_cases found
    exact branch_of_full heads (names w name full named)

theorem applyA2IfBranch_run (names : out.NamesProperly) (s : Store ω) (projection : Projection)
    {index : Bytes} (built : a1PlusOverlay commitOid objectsDir index = some overlay) :
    ∃ after, Yields (out.applyA2IfBranch projection commitOid overlay) s after s ∧
      ∀ {σ : Type} (shown : Projection) (store : StoreHandle (StateM σ)) (u : σ),
        OnCommit (out.branchOf s.world projection) commitOid objectsDir index
          (dotgitFile (resolved shown store u after)) := by
  unfold Outside.applyA2IfBranch
  cases branch : out.branchOf s.world projection with
  | none =>
    refine ⟨overlay, ?_, fun _ _ _ => a1Plus_onCommit built⟩
    simp [branch]
  | some full =>
    obtain ⟨path, some_, proper, rfl⟩ := branchOf_proper names branch
    obtain ⟨after, applied, onCommit⟩ := a2_onCommit some_ proper built
    refine ⟨after, ?_, onCommit⟩
    simp [branch, applied]

structure Found (out : Outside ω) (w : ω) (projection : Projection) (gitDir : PathBuf)
    (commitOid rootTree : ObjectId) (objectsDir index : Bytes) : Prop where
  commit : resolveAt out.gix w projection = .ok commitOid
  tree : commitTreeAt out.gix w commitOid = .ok rootTree
  objects : out.canonicalize w (ProjgitRegistry.join gitDir (pathOf "objects")) = .ok objectsDir
  index : out.writeIndex w rootTree = .ok index

theorem a1PlusFor_yields (built : Yields (out.a1PlusFor commitOid objectsDir) s overlay t) :
    t = s ∧ ∃ tree index, commitTreeAt out.gix s.world commitOid = .ok tree ∧
      out.writeIndex s.world tree = .ok index ∧
      a1PlusOverlay commitOid objectsDir index = some overlay := by
  simp only [Outside.a1PlusFor, Outside.buildIndexBytes, yields_bind, yields_adapt,
    yields_commitTree, yields_get, yields_asked, yields_orPanic] at built
  obtain ⟨index, s₁, ⟨tree, s₂, ⟨found, tail₂⟩, s₃, s₄, ⟨same, tail₄⟩, written, tail₁⟩, plus,
    tail⟩ := built
  obtain rfl := tail₂.symm
  obtain rfl := same.symm
  obtain rfl := tail₄.symm
  obtain rfl := tail₁.symm
  exact ⟨tail, tree, index, found, written, plus⟩

theorem dotgitOf_yields (names : out.NamesProperly)
    (built : Yields (out.dotgitOf projection commitOid objectsDir) s overlay t) :
    t = s ∧ ∃ tree index, commitTreeAt out.gix s.world commitOid = .ok tree ∧
      out.writeIndex s.world tree = .ok index ∧
      ∀ {σ : Type} (shown : Projection) (store : StoreHandle (StateM σ)) (u : σ),
        OnCommit (out.branchOf s.world projection) commitOid objectsDir index
          (dotgitFile (resolved shown store u overlay)) := by
  simp only [Outside.dotgitOf, yields_bind, yields_context] at built
  obtain ⟨plain, s', first, applied⟩ := built
  obtain ⟨tail, tree, index, found, written, plus⟩ := a1PlusFor_yields first
  obtain rfl := tail.symm
  obtain ⟨after, there, onCommit⟩ := applyA2IfBranch_run names s projection plus
  obtain ⟨answer, rfl⟩ := Prod.mk.inj (there.symm.trans applied)
  cases answer
  exact ⟨rfl, tree, index, found, written, onCommit⟩

theorem dotgitFor_yields (names : out.NamesProperly) {gitDir : PathBuf}
    (built : Yields (out.dotgitFor projection gitDir) s overlay t) :
    t = s ∧ ∃ commitOid rootTree objectsDir index,
      Found out s.world projection gitDir commitOid rootTree objectsDir index ∧
      ∀ {σ : Type} (shown : Projection) (store : StoreHandle (StateM σ)) (u : σ),
        OnCommit (out.branchOf s.world projection) commitOid objectsDir index
          (dotgitFile (resolved shown store u overlay)) := by
  simp only [Outside.dotgitFor, yields_bind, yields_context, yields_adapt, yields_resolveCommit,
    yields_get, yields_asked] at built
  obtain ⟨commitOid, s₁, ⟨commit, tail₁⟩, objectsDir, s₂, ⟨s₃, s₄, ⟨same, tail₄⟩, objects, tail₂⟩,
    rest⟩ := built
  obtain rfl := tail₁.symm
  obtain rfl := same.symm
  obtain rfl := tail₄.symm
  obtain rfl := tail₂.symm
  obtain ⟨same, tree, index, found, written, onCommit⟩ := dotgitOf_yields names rest
  exact ⟨same, commitOid, tree, objectsDir, index, ⟨commit, found, objects, written⟩, onCommit⟩

def Synthesised (noDotgit : Bool) : Projection → Prop
  | .subtree _ _ => False
  | .ref _ | .commit _ => noDotgit = false

theorem overlayFor_cases (out : Outside ω) (noDotgit : Bool) (projection : Projection)
    (gitDir : PathBuf) :
    Synthesised noDotgit projection ∧
        out.overlayFor noDotgit projection gitDir = out.dotgitFor projection gitDir ∨
      ¬ Synthesised noDotgit projection ∧
        out.overlayFor noDotgit projection gitDir = pure RootOverlay.new := by
  unfold Outside.overlayFor
  cases noDotgit <;> cases projection <;> simp [Synthesised]

theorem dotgitFor_calm (names : out.NamesProperly) {gitDir : PathBuf} :
    Calm (out.dotgitFor projection gitDir) s := by
  refine calm_bind (calm_context (calm_adapt fun e _ => by simp)) fun commitOid t _ => ?_
  refine calm_bind (calm_context (calm_bind (calm_pure _) fun _ _ _ => calm_asked _))
    fun objectsDir t _ => ?_
  refine calm_bind (calm_context (calm_bind ?_ fun index t _ => ?_)) fun overlay t built => ?_
  · refine calm_bind (calm_adapt fun e _ => by simp) fun tree t _ => ?_
    exact calm_bind (calm_pure _) fun _ _ _ => calm_asked _
  · obtain ⟨overlay, same, -⟩ := dotgitOverlay_headed commitOid objectsDir (some index)
    exact calm_orPanic (by rw [show a1PlusOverlay commitOid objectsDir index = _ from same]; rfl)
  · obtain ⟨-, tree, index, -, -, plus⟩ := a1PlusFor_yields ((yields_context _ _ _).mp built)
    obtain ⟨after, there, -⟩ := applyA2IfBranch_run names t projection plus
    rw [Calm, there]
    simp

inductive Asks (out : Outside ω) (args : MountArgs) : Projection → Prop
  | commit {hex oid} (none_ : args.ref = none) (given : args.commit = some hex)
      (read : out.fromHex hex = .ok oid) : Asks out args (.commit oid)
  | ref {name} (given : args.ref = some name) (none_ : args.commit = none) :
      Asks out args (.ref (textBytes name))
  | head (noRef : args.ref = none) (none_ : args.commit = none) : Asks out args (.ref headName)

/-- The projection of the arguments: the base, or the subtree of the commit that the base names
    at the time. -/
inductive Projects (out : Outside ω) (w : ω) (args : MountArgs) : Projection → Prop
  | whole {base} (asks : Asks out args base)
      (all : ∀ path, args.subtree = some path → trim (textBytes path) = []) :
      Projects out w args base
  | below {base oid path} (asks : Asks out args base) (given : args.subtree = some path)
      (some_ : trim (textBytes path) ≠ []) (commit : resolveAt out.gix w base = .ok oid) :
      Projects out w args (.subtree oid (trim (textBytes path)))

theorem baseProjection_yields {args : MountArgs} {base : Projection}
    (built : Yields (out.baseProjection args) s base t) : t = s ∧ Asks out args base := by
  unfold Outside.baseProjection at built
  cases ref : args.ref with
  | none =>
    cases commit : args.commit with
    | none =>
      simp only [ref, commit, yields_pure] at built
      obtain ⟨rfl, same⟩ := built
      exact ⟨same, .head ref commit⟩
    | some hex =>
      simp only [ref, commit] at built
      rw [map_eq_pure_bind, yields_bind] at built
      simp only [yields_asked, yields_pure] at built
      obtain ⟨oid, u, ⟨read, tail⟩, rfl, rfl⟩ := built
      refine ⟨tail, .commit ref commit ?_⟩
      cases value : out.fromHex hex with
      | error e =>
        rw [value] at read
        cases read
      | ok oid' =>
        rw [value] at read
        cases read
        rfl
  | some name =>
    cases commit : args.commit with
    | none =>
      simp only [ref, commit, yields_pure] at built
      obtain ⟨rfl, same⟩ := built
      exact ⟨same, .ref ref commit⟩
    | some hex => simp [ref, commit] at built

theorem peelBase_yields {base : Projection} {oid : ObjectId}
    (built : Yields (out.peelBase base) s oid t) :
    t = s ∧ resolveAt out.gix s.world base = .ok oid := by
  cases base with
  | commit oid' =>
    simp only [Outside.peelBase, yields_pure] at built
    obtain ⟨rfl, same⟩ := built
    exact ⟨same, rfl⟩
  | ref name =>
    simp only [Outside.peelBase, yields_context, Outside.resolveRef, yields_adapt] at built
    have resolved : Yields ((Projection.ref name).resolveCommit
        (out.gix.handle : StoreHandle (StateM (Store ω)))) s oid t :=
      (yields_adapt _ _ _ _ _).mpr built
    rw [yields_resolveCommit] at resolved
    exact resolved.symm
  | subtree oid' path => simp [Outside.peelBase] at built

theorem buildProjection_yields {args : MountArgs}
    (built : Yields (out.buildProjection args) s projection t) :
    t = s ∧ Projects out s.world args projection := by
  rw [Outside.buildProjection, yields_bind] at built
  obtain ⟨base, u, first, rest⟩ := built
  obtain ⟨rfl, asks⟩ := baseProjection_yields first
  cases given : args.subtree with
  | none =>
    simp only [given, yields_pure] at rest
    obtain ⟨rfl, same⟩ := rest
    exact ⟨same, .whole asks (by simp [given])⟩
  | some path =>
    simp only [given, Outside.foldSubtree] at rest
    split at rest
    · rename_i all
      rw [yields_pure] at rest
      obtain ⟨rfl, same⟩ := rest
      refine ⟨same, .whole asks fun path' given' => ?_⟩
      cases given.symm.trans given'
      exact all
    · rename_i some_
      simp only [yields_bind, yields_pure] at rest
      obtain ⟨oid, v, peeled, rfl, tail⟩ := rest
      obtain ⟨same, commit⟩ := peelBase_yields peeled
      exact ⟨tail.trans same, .below asks given some_ commit⟩

/-- clap has rejected `--ref` together with `--commit`. -/
theorem buildProjection_calm {args : MountArgs} (one : args.ref = none ∨ args.commit = none) :
    Calm (out.buildProjection args) s := by
  refine calm_bind ?_ fun base t built => ?_
  · unfold Outside.baseProjection
    cases ref : args.ref with
    | none =>
      cases commit : args.commit with
      | none => exact calm_pure _
      | some hex =>
        simp only [map_eq_pure_bind]
        exact calm_bind (calm_asked _) fun _ _ _ => calm_pure _
    | some name =>
      rcases one with absent | absent
      · rw [ref] at absent
        cases absent
      · simp only [absent]
        exact calm_pure _
  · cases args.subtree with
    | none => exact calm_pure _
    | some path =>
      simp only [Outside.foldSubtree]
      split
      · exact calm_pure _
      · refine calm_bind ?_ fun _ _ _ => calm_pure _
        obtain ⟨-, asks⟩ := baseProjection_yields built
        cases asks with
        | commit => exact calm_pure _
        | ref | head => exact calm_context (calm_adapt fun e _ => by simp)

/-- Objects are named by their content: what is found under a name is always the same. -/
def ContentAddressed (G : Gix ω) : Prop :=
  ∀ w w' oid obj obj', G.tryFindObject w oid = .ok (some obj) →
    G.tryFindObject w' oid = .ok (some obj') → obj = obj'

theorem commitTree_object {G : Gix ω} {w : ω} {oid tree : ObjectId}
    (found : commitTreeAt G w oid = .ok tree) :
    ∃ obj, G.tryFindObject w oid = .ok (some obj) ∧ commitTreeOf G oid (some obj) = .ok tree := by
  unfold commitTreeAt at found
  rcases answer : G.tryFindObject w oid with e | _ | obj
  · rw [answer] at found
    cases found
  · rw [answer] at found
    cases found
  · rw [answer] at found
    exact ⟨obj, rfl, found⟩

theorem commitTree_unique {G : Gix ω} (addressed : ContentAddressed G) {w w' : ω}
    {oid tree tree' : ObjectId} (first : commitTreeAt G w oid = .ok tree)
    (later : commitTreeAt G w' oid = .ok tree') : tree' = tree := by
  obtain ⟨obj, found, read⟩ := commitTree_object first
  obtain ⟨obj', found', read'⟩ := commitTree_object later
  obtain rfl := addressed w w' oid obj obj' found found'
  exact Except.ok.inj (read'.symm.trans read)

theorem rootTree_yields {noDotgit : Bool} (synthesised : Synthesised noDotgit projection)
    {tree : ObjectId} (listed : Yields (projection.rootTree
      (out.gix.handle : StoreHandle (StateM (Store ω)))) s tree t) :
    ∃ now, resolveAt out.gix s.world projection = .ok now ∧
      commitTreeAt out.gix s.world now = .ok tree := by
  cases projection with
  | subtree oid path => exact synthesised.elim
  | commit oid =>
    simp only [Projection.rootTree, yields_adapt, yields_commitTree] at listed
    exact ⟨oid, rfl, listed.1⟩
  | ref name =>
    simp only [Projection.rootTree, yields_bind] at listed
    obtain ⟨now, u, resolved, rest⟩ := listed
    have named := (yields_resolveCommit out.gix (.ref name) now).mp resolved
    rw [yields_adapt, yields_commitTree, named.2] at rest
    exact ⟨now, named.1, rest.1⟩

theorem mountView_yields {args : MountArgs} {gitDir : PathBuf}
    (built : Yields (out.mountView args gitDir) s (projection, overlay) t) :
    Projects out s.world args projection ∧
      Yields (out.overlayFor args.noDotgit projection gitDir) s overlay t := by
  simp only [Outside.mountView, Outside.buildRootOverlay, yields_bind, yields_pure] at built
  obtain ⟨projection', u, first, overlay', v, second, same, rfl⟩ := built
  cases same
  obtain ⟨rfl, projects⟩ := buildProjection_yields first
  exact ⟨projects, second⟩

/-- Whatever `mount` is asked for: building the projection and its overlay does not panic, and
    if it succeeds there is either no `.git/`, or its files are on the commit that the projection
    named, on the branch it is of, with an index of the tree that the root of the mount lists,
    now and as long as the projection names that commit. -/
theorem git_is_on_the_mounted_commit (names : out.NamesProperly)
    (addressed : ContentAddressed out.gix) {args : MountArgs}
    (one : args.ref = none ∨ args.commit = none) (gitDir : PathBuf) (s : Store ω) :
    Calm (out.mountView args gitDir) s ∧
    ∀ projection overlay t, Yields (out.mountView args gitDir) s (projection, overlay) t →
      t = s ∧ Projects out s.world args projection ∧
      (¬ Synthesised args.noDotgit projection → overlay = .new) ∧
      (Synthesised args.noDotgit projection → ∃ commitOid rootTree objectsDir index,
        Found out s.world projection gitDir commitOid rootTree objectsDir index ∧
        (∀ {σ : Type} (shown : Projection) (store : StoreHandle (StateM σ)) (u : σ),
          OnCommit (out.branchOf s.world projection) commitOid objectsDir index
            (dotgitFile (resolved shown store u overlay))) ∧
        ∀ later listed after, resolveAt out.gix later.world projection = .ok commitOid →
          Yields (projection.rootTree (out.gix.handle : StoreHandle (StateM (Store ω)))) later
            listed after → listed = rootTree) := by
  constructor
  · refine calm_bind (buildProjection_calm one) fun projection t _ => ?_
    refine calm_bind ?_ fun _ _ _ => calm_pure _
    rcases overlayFor_cases out args.noDotgit projection gitDir with
      ⟨-, same⟩ | ⟨-, same⟩
    · rw [Outside.buildRootOverlay, same]
      exact dotgitFor_calm names
    · rw [Outside.buildRootOverlay, same]
      exact calm_pure _
  · intro projection overlay t built
    obtain ⟨projects, built⟩ := mountView_yields built
    rcases overlayFor_cases out args.noDotgit projection gitDir with
      ⟨yes, same⟩ | ⟨no, same⟩
    · rw [same] at built
      obtain ⟨unchanged, commitOid, rootTree, objectsDir, index, found, onCommit⟩ :=
        dotgitFor_yields names built
      refine ⟨unchanged, projects, absurd yes, fun _ => ⟨commitOid, rootTree, objectsDir, index,
        found, onCommit, fun later listed after unmoved shown => ?_⟩⟩
      obtain ⟨now, named, tree⟩ := rootTree_yields yes shown
      cases unmoved.symm.trans named
      exact commitTree_unique addressed found.tree tree
    · rw [same, yields_pure] at built
      exact ⟨built.2, projects, fun _ => built.1, fun yes => absurd yes no⟩

end

/-! ### The same overlay in the registry -/

structure Mirrors (host : Host) (out : Outside ω) (s : Store ω) (gitDir : PathBuf) : Prop where
  canonicalize : ∀ path, host.canonicalize path = out.canonicalize s.world path
  resolveCommit : ∀ name, host.resolveCommit gitDir name =
    (resolveAt out.gix s.world (.ref (textBytes name))).mapError (.error ∘ Outside.resolveText)
  a1PlusOverlay : ∀ commitOid objectsDir, host.a1PlusOverlay gitDir commitOid objectsDir =
    ((out.a1PlusFor commitOid objectsDir).run.run s).1.map fun _ => ()
  applyA2 : ∀ name commitOid, host.applyA2 gitDir name commitOid = .ok ()

def told {α : Type} (x : Build ω α) (s : Store ω) : Attempt α := (x.run.run s).1

theorem told_bind {α β : Type} {x : Build ω α} {f : α → Build ω β} {s : Store ω}
    (quiet : ∀ a t, Yields x s a t → t = s) :
    told (x >>= f) s = (told x s).bind fun a => told (f a) s := by
  unfold told
  rw [ExceptT.run_bind, StateT.run_bind]
  rcases ran : x.run.run s with ⟨e | a, t⟩
  · rfl
  · obtain rfl := quiet a t ran
    rfl

theorem registry_overlay {out : Outside ω} {s : Store ω} {host : Host} {gitDir : PathBuf}
    (names : out.NamesProperly) (mirrors : Mirrors host out s gitDir) (noDotgit : Bool)
    (name : String) :
    ProjgitRegistry.buildOverlay host noDotgit name gitDir =
      (told (out.buildOverlay noDotgit (.ref (textBytes name)) gitDir) s).map fun _ => () := by
  cases noDotgit with
  | true => rfl
  | false =>
    have commit : told (ExceptT.adapt (.error ∘ Outside.resolveText)
        ((Projection.ref (textBytes name)).resolveCommit out.gix.handle)) s =
        host.resolveCommit gitDir name := (mirrors.resolveCommit name).symm
    have objects : ∀ path, told (do asked (out.canonicalize (← get).world path)) s =
        (host.canonicalize path).mapError .error := fun path => by
      rw [mirrors.canonicalize]
      rfl
    have plus : ∀ commitOid objectsDir, host.a1PlusOverlay gitDir commitOid objectsDir =
        (told (out.a1PlusFor commitOid objectsDir) s).map fun _ => () := mirrors.a1PlusOverlay
    have within : ∀ {α : Type} message (x : Build ω α),
        told (context message x) s = withContext message (told x s) := fun _ _ => rfl
    simp only [ProjgitRegistry.buildOverlay, Bool.false_eq_true, if_false]
    change _ = (told (out.dotgitFor (.ref (textBytes name)) gitDir) s).map _
    rw [Outside.dotgitFor, told_bind, within, commit]
    · cases host.resolveCommit gitDir name with
      | error e => rfl
      | ok commitOid =>
        change _ = (told (context _ _ >>= _) s).map _
        rw [told_bind, within, objects]
        · change ((withContext _ ((host.canonicalize _).mapError Failure.error)).bind _) = _
          cases host.canonicalize (ProjgitRegistry.join gitDir (pathOf "objects")) with
          | error e => rfl
          | ok objectsDir =>
            change ((withContext _ (host.a1PlusOverlay gitDir commitOid objectsDir)).bind _) =
              (told (context _ _ >>= _) s).map _
            rw [told_bind, within, plus]
            · cases built : told (out.a1PlusFor commitOid objectsDir) s with
              | error e => rfl
              | ok overlay =>
                have yields : Yields (out.a1PlusFor commitOid objectsDir) s overlay _ :=
                  Prod.ext built rfl
                obtain ⟨-, tree, index, -, -, plus⟩ := a1PlusFor_yields yields
                obtain ⟨after, there, -⟩ :=
                  applyA2IfBranch_run names s (.ref (textBytes name)) plus
                change host.applyA2 gitDir name commitOid = (told _ s).map _
                rw [mirrors.applyA2, told, there]
                rfl
            · exact fun overlay t built => (a1PlusFor_yields ((yields_context _ _ _).mp built)).1
        · intro objectsDir t built
          simp only [yields_context, yields_bind, yields_get, yields_asked] at built
          obtain ⟨u, v, ⟨-, rfl⟩, -, same⟩ := built
          exact same
    · intro commitOid t built
      simp only [yields_context, yields_adapt, yields_resolveCommit] at built
      exact built.2

theorem contentAddressed_of_answers {G : Gix ω} {u : Universe ω} (answers : G.Answers u) :
    ContentAddressed G := by
  have known : ∀ w oid obj, G.tryFindObject w oid = .ok (some obj) → u.object oid = some obj := by
    intro w oid obj found
    rw [answers.object] at found
    have there := Except.ok.inj found
    unfold Universe.found at there
    split at there
    · exact there
    · cases there
  intro w w' oid obj obj' found found'
  exact Option.some.inj ((known w oid obj found).symm.trans (known w' oid obj' found'))

section Sample
open ProjgitTables

def mainOutside : Outside World where
  gix := refTables.gix
  referenceName w name :=
    if name = mainRef then (refTables.gix.findReference w mainRef).map fun _ => mainRef
    else .error "not found"
  writeIndex _ _ := .ok (ascii "DIRC")
  canonicalize _ path := .ok path
  fromHex _ := .error "no hex"

def mainArgs : MountArgs := ⟨some "refs/heads/main", none, none, false⟩

theorem mainOutside_names : mainOutside.NamesProperly := by
  intro w name full named
  have shape : split mainRef = [refsName, headsName, ascii "main"] := by decide
  change (if name = mainRef then _ else _) = _ at named
  split at named
  · cases found : refTables.gix.findReference w mainRef with
    | error e =>
      rw [found] at named
      cases named
    | ok oid =>
      rw [found] at named
      cases named
      rw [shape]
      intro c member
      simp only [List.mem_cons, List.not_mem_nil, or_false] at member
      rcases member with rfl | rfl | rfl <;> exact ⟨by decide, by decide⟩
  · cases named

theorem main_named :
    resolveAt mainOutside.gix refStore.world (.ref mainRef) = .ok (fixtureId 1) := by
  have named : mainOutside.gix.findReference refStore.world mainRef = .ok (fixtureId 1) := ref_named
  rw [resolveAt, named]
  rfl

theorem main_built : ∃ overlay, Yields (mainOutside.mountView mainArgs (ascii "/clone/.git"))
    refStore (.ref mainRef, overlay) refStore := by
  obtain ⟨plain, plus, -⟩ := dotgitOverlay_headed (fixtureId 1)
    (ProjgitRegistry.join (ascii "/clone/.git") (pathOf "objects")) (some (ascii "DIRC"))
  obtain ⟨overlay, applied, -⟩ :=
    applyA2IfBranch_run mainOutside_names refStore (.ref mainRef) plus
  refine ⟨overlay, ?_⟩
  rw [Outside.mountView, yields_bind]
  refine ⟨.ref mainRef, refStore, ?_, ?_⟩
  · have text : textBytes "refs/heads/main" = mainRef := by decide
    simp [Outside.buildProjection, Outside.baseProjection, mainArgs, text]
  · rw [yields_bind]
    refine ⟨overlay, refStore, ?_, by simp⟩
    change Yields (mainOutside.dotgitFor (.ref mainRef) _) _ _ _
    simp only [Outside.dotgitFor, Outside.dotgitOf, Outside.a1PlusFor, Outside.buildIndexBytes,
      yields_bind,
      yields_context, yields_adapt, yields_resolveCommit, yields_commitTree, yields_get,
      yields_asked, yields_orPanic]
    exact ⟨fixtureId 1, refStore, ⟨main_named, rfl⟩, _, refStore, ⟨refStore, refStore, ⟨rfl, rfl⟩,
      rfl, rfl⟩, plain, refStore, ⟨ascii "DIRC", refStore, ⟨fixtureId 2, refStore,
      ⟨by decide +kernel, rfl⟩, refStore, refStore, ⟨rfl, rfl⟩, rfl, rfl⟩, plus, rfl⟩, applied⟩

theorem main_is_checked_out : ∃ overlay,
    Yields (mainOutside.mountView mainArgs (ascii "/clone/.git")) refStore (.ref mainRef, overlay)
      refStore ∧
    HeadHolds (some mainRef) (fixtureId 1)
      (dotgitFile (resolved (.ref mainRef) mainOutside.gix.handle refStore overlay)) := by
  obtain ⟨overlay, built⟩ := main_built
  refine ⟨overlay, built, ?_⟩
  have one : mainArgs.ref = none ∨ mainArgs.commit = none := Or.inr rfl
  obtain ⟨-, -, -, synthesised⟩ := (git_is_on_the_mounted_commit mainOutside_names
    (contentAddressed_of_answers refTables.answers) one _ refStore).2 _ _ _ built
  obtain ⟨commitOid, _, _, _, found, onCommit, -⟩ := synthesised rfl
  cases main_named.symm.trans found.commit
  have branch : mainOutside.branchOf refStore.world (.ref mainRef) = some mainRef := by
    decide +kernel
  rw [branch] at onCommit
  exact (onCommit _ _ _).head

end Sample
end ProjgitMount
