import Projgit.AttrCoherence
import Projgit.FuseAdapter
import Projgit.Lib.Leases

/-!
What the kernel makes of a mount (`adapter.rs`): it keeps the replies to `lookup` and `getattr`
for as long as the adapter allows, a day, and puts files together from the pieces it reads. Over
one commit nothing it keeps goes stale, save for the owner, and every file is the git blob. The
handles, which are always zero, and what has no state are left out.
-/
namespace ProjgitFuse
open Utf8Bytes SlashPath ProjgitStore ProjgitProjection ProjgitFs ProjgitServing Stateful
open LabelledRuns LeasedAnswers

structure Request where
  uid : UInt32
  gid : UInt32

structure FileAttr where
  ino : UInt64
  size : Nat
  blocks : Nat
  atime : Int
  mtime : Int
  ctime : Int
  crtime : Int
  kind : FileType
  perm : UInt16
  nlink : Nat
  uid : UInt32
  gid : UInt32
  rdev : Nat
  flags : Nat
  blksize : Nat
  deriving DecidableEq

/-- In seconds. -/
def attrTtl : Nat := 86400

def generation : Nat := 0

def toFuserAttr (a : Attr) (reqUid reqGid : UInt32) : FileAttr where
  ino := a.inode
  size := a.size
  blocks := (a.size + 511) / 512
  atime := a.mtime
  mtime := a.mtime
  ctime := a.mtime
  crtime := a.mtime
  kind := a.kind
  perm := a.mode
  nlink := a.nlink
  -- The asker owns what it is shown; the provider's owner is ignored.
  uid := reqUid
  gid := reqGid
  rdev := 0
  flags := 0
  blksize := 4096

structure ReplyEntry where
  ttl : Nat
  attr : FileAttr
  generation : Nat

structure ReplyAttr where
  ttl : Nat
  attr : FileAttr

section Adapter
variable {m : Type → Type} [Monad m] (provider : FsProvider m)

def lookup (req : Request) (parent : UInt64) (name : Bytes) : ExceptT Errno m ReplyEntry := do
  let attr ← ExceptT.adapt errnoFor (provider.lookup parent name)
  return ⟨attrTtl, toFuserAttr attr req.uid req.gid, generation⟩

def getattr (req : Request) (ino : UInt64) : ExceptT Errno m ReplyAttr := do
  let attr ← ExceptT.adapt errnoFor (provider.getattr ino)
  return ⟨attrTtl, toFuserAttr attr req.uid req.gid⟩

def readlink (ino : UInt64) : ExceptT Errno m Bytes :=
  ExceptT.adapt errnoFor (provider.readlink ino)

def read (ino : UInt64) (offset size : Nat) : ExceptT Errno m Bytes :=
  ExceptT.adapt errnoFor (provider.read ino offset size)

end Adapter

/-- What the kernel has a cache for: the entry of a name in a directory, and the attributes of an
    inode. -/
inductive CacheKey where
  | entry (parent : UInt64) (name : Bytes)
  | attr (ino : UInt64)
  deriving DecidableEq

section
variable {ω : Type} (M : Mount ω)

abbrev Upcall (ω : Type) := Request × FsAction ω

def fuseStep (s : FsState ω) (call : Upcall ω) : Option (FsState ω) := fsStep M s call.2

/-- What a reply lets the kernel keep: a looked-up entry brings its attributes with it, and of an
    error nothing is kept. -/
def kept (s : FsState ω) : Upcall ω → List (CacheKey × FileAttr)
  | (req, .lookup parent name) =>
    match ((lookup M.provider req parent name).run.run s).1 with
    | .ok reply => [(.entry parent name, reply.attr), (.attr reply.attr.ino, reply.attr)]
    | .error _ => []
  | (req, .getattr ino) =>
    match ((getattr M.provider req ino).run.run s).1 with
    | .ok reply => [(.attr ino, reply.attr)]
    | .error _ => []
  | _ => []

/-- The kernel in front of a mount: its calls, what it answers from its caches, what it forgets. -/
abbrev Kernel (ω : Type) := Client (FsState ω) CacheKey FileAttr

abbrev KernelMove (ω : Type) := Move (Upcall ω) CacheKey FileAttr

def kernelStep : Kernel ω → KernelMove ω → Option (Kernel ω) := move (fuseStep M) (kept M) attrTtl

def upcalls (moves : List (KernelMove ω)) : List (FsAction ω) := (calls moves).map Prod.snd

end

/-! ### The adapter's answers -/

section
variable {ω : Type} {M : Mount ω} {s t : FsState ω} {req : Request} {i parent : UInt64}
  {name : Bytes}

theorem adapt_run {α β : Type} (x : FsM ω α) (f : α → β) :
    ((ExceptT.adapt errnoFor x >>= fun a => pure (f a)).run.run s).1 =
      ((x.run.run s).1.mapError errnoFor).map f := by
  change Gives (ExceptT.run (ExceptT.adapt errnoFor x >>= fun a => pure (f a))) s fun r _ => r = _
  rw [gives_run_bind, gives_run_adapt]
  apply (gives_self _ s).mono
  rintro r t ⟨rfl, -⟩
  cases (x.run.run s).1 <;> rfl

theorem lookup_run : ((lookup M.provider req parent name).run.run s).1 =
    (((M.lookup parent name).run.run s).1.mapError errnoFor).map fun a =>
      ⟨attrTtl, toFuserAttr a req.uid req.gid, generation⟩ := adapt_run _ _

theorem getattr_run : ((getattr M.provider req i).run.run s).1 =
    (((M.getattr i).run.run s).1.mapError errnoFor).map fun a =>
      ⟨attrTtl, toFuserAttr a req.uid req.gid⟩ := adapt_run _ _

end

/-! ### Names that were looked up -/

section
variable {ω : Type} {M : Mount ω} {u : Universe ω} {w₀ : ω} {c : ObjectId} {id : UInt64}
  {keys : List (Bytes × ResolvedEntry)} {told : List Attr} {s t : FsState ω} {store : Store ω}
  {parent : UInt64} {name path : Bytes} {a : Attr}

def PathOf (s : FsState ω) (parent : UInt64) (path : Bytes) : Prop :=
  parent = rootInode ∧ path = [] ∨ parent ≠ rootInode ∧
    ((∃ tree, s.attrs.lookup parent = some (.treeDir tree path)) ∨
      ∃ children, s.attrs.lookup parent = some (.syntheticDir children path))

theorem parentPath_gives (parent : UInt64) (s : FsState ω) :
    Gives (parentPath parent : FsM ω Bytes).run s fun r t => t = s ∧
      ∀ path, r = .ok path ↔ PathOf s parent path := by
  unfold parentPath
  by_cases isRoot : parent = rootInode
  · simp only [isRoot, if_true]
    refine ⟨rfl, fun path => ?_⟩
    change Except.ok [] = Except.ok path ↔ _
    simp [PathOf, eq_comm]
  · simp only [isRoot, if_false]
    rw [gives_run_bind]
    change Sequel _ _ (.ok s) s
    rw [sequel_ok]
    cases there : s.attrs.lookup parent with
    | none => exact ⟨rfl, fun path => iff_of_false (by simp) (by simp [PathOf, isRoot, there])⟩
    | some snap =>
      cases snap with
      | treeDir tree known =>
        refine ⟨rfl, fun path => ?_⟩
        change Except.ok known = Except.ok path ↔ _
        simp [PathOf, isRoot, there]
      | syntheticDir children known =>
        refine ⟨rfl, fun path => ?_⟩
        change Except.ok known = Except.ok path ↔ _
        simp [PathOf, isRoot, there]
      | _ => exact ⟨rfl, fun path => iff_of_false (by simp) (by simp [PathOf, isRoot, there])⟩

theorem PathOf.remembered (walked : PathOf s parent path) (remembers : Remembers s t) :
    PathOf t parent path := by
  rcases walked with root | ⟨inner, ⟨tree, cached⟩ | ⟨children, cached⟩⟩
  · exact Or.inl root
  · exact Or.inr ⟨inner, Or.inl ⟨tree, remembers _ _ cached⟩⟩
  · exact Or.inr ⟨inner, Or.inr ⟨children, remembers _ _ cached⟩⟩

structure Names (M : Mount ω) (u : Universe ω) (id : UInt64) (full : Bytes)
    (found : ResolvedEntry) (a : Attr) : Prop where
  leads : LeadsTo M u full found
  attr : a = attrOf M (inodeOf M.hasher id full found) (snapshotOf u full found)

def Named (M : Mount ω) (u : Universe ω) (id : UInt64) (s : FsState ω) (parent : UInt64)
    (name : Bytes) (a : Attr) : Prop :=
  ∃ path found, PathOf s parent path ∧ Names M u id (joinPath path name) found a

theorem Named.remembered (named : Named M u id s parent name a) (remembers : Remembers s t) :
    Named M u id t parent name a := by
  obtain ⟨path, found, walked, names⟩ := named
  exact ⟨path, found, walked.remembered remembers, names⟩

theorem lookup_names (pinned : Pinned M u w₀ c) (coherent : Coherent M u w₀ id keys told s)
    (parent : UInt64) (name : Bytes) :
    Gives (M.lookup parent name).run s fun r _ => ∀ a, r = .ok a →
      ∃ path found, PathOf s parent path ∧ Names M u id (joinPath path name) found a ∧
        keyOf M s (.lookup parent name) = some (joinPath path name, found) := by
  unfold Mount.lookup
  rw [gives_run_bind]
  apply ((parentPath_gives parent s).and (gives_self _ s)).mono
  rintro (e | path) t ⟨⟨rfl, walked⟩, asked, -⟩
  · exact fun a impossible => by cases impossible
  rw [sequel_ok, gives_run_bind, gives_onStoreOr]
  apply ((resolve_sound pinned coherent.store (joinPath path name)).and
    (gives_self _ t.store)).mono
  rintro (e | found) store ⟨⟨partly, leads⟩, resolved, -⟩
  · exact fun a impossible => by cases impossible
  simp only [Except.mapError, sequel_ok, gives_run_bind]
  have projectionId : ({ t with store := store } : FsState ω).allocator.projectionId = id :=
    coherent.projectionId
  apply (snapshotFor_sound pinned partly projectionId (joinPath path name) found).mono
  rintro (e | answer) v ⟨-, value⟩
  · exact fun a impossible => by cases impossible
  cases value answer rfl
  simp only [sequel_ok, gives_run_bind, gives_run_lift]
  rintro a ⟨⟩
  refine ⟨path, found, (walked path).mp rfl, ⟨leads found rfl, rfl⟩, ?_⟩
  simp only [keyOf, ← asked, ← resolved]

/-- A path that led somewhere leads there again, or an object is not to be had. -/
theorem resolve_again (pinned : Pinned M u w₀ c) (partly : Partly M.gix u w₀ store)
    {full : Bytes} {found : ResolvedEntry} (leads : LeadsTo M u full found) :
    Gives (M.projection.lookup M.bare M.overlay full).run store fun r after =>
      Partly M.gix u w₀ after ∧ (r = .ok found ∨ ∃ e, r = .error (.store e)) := by
  refine (lookup_returns (pinned.simulates store.world) M.projection M.overlay full store
    ⟨partly.1, rfl⟩).mono ?_
  intro r after given
  obtain ⟨value, truthful, world⟩ := given
  refine ⟨⟨truthful, world ▸ partly.2⟩, ?_⟩
  have short : Short (M.gix.uncached (u.found store.world) (M.gix.findReference store.world))
      (M.gix.uncached u.object fun _ => .error "") (fun oid => u.resident store.world oid = true)
      M.projection :=
    short_found M.gix u store.world fun name isRef => absurd isRef (pinned.ofCommit.notRef name)
  have follows := lookup_follows short (pinned.ofCommit.starts _)
    (partly.2 c pinned.commit) M.overlay full
  by_cases here : ∀ oid ∈ lookupReads (M.gix.uncached u.object fun _ => .error "") M.projection
      M.overlay full, u.resident store.world oid = true
  · exact Or.inl (value.trans ((follows.1 here).trans (leads _)))
  · push Not at here
    obtain ⟨oid, missing⟩ := follows.2 here
    exact Or.inr ⟨.missingObject oid, value.trans missing⟩

theorem snapshotFor_errors (found : ResolvedEntry) (full : Bytes) :
    Gives (M.snapshotFor found full).run s fun r _ => ∀ e, r = .error e → ∃ text, e = .io text := by
  cases found with
  | synthetic label e => cases e <;> exact fun e impossible => by cases impossible
  | tree e =>
    unfold Mount.snapshotFor Mount.snapshotForTree
    rw [gives_run_bind, gives_run_lift, gives_allocate]
    simp only [sequel_ok]
    cases e.mode with
    | directory => exact fun e impossible => by cases impossible
    | gitlink => exact fun e impossible => by cases impossible
    | _ =>
      simp only [gives_run_bind, gives_onStoreOr]
      apply (gives_self _ _).mono
      rintro (e | _) store -
      · rintro _ ⟨⟩
        exact ⟨_, rfl⟩
      · exact fun e impossible => by cases impossible

/-- A name that was found is found again with the same attributes, or an object is not to be
    had: it is never gone. -/
theorem lookup_again (pinned : Pinned M u w₀ c) (coherent : Coherent M u w₀ id keys told s)
    (named : Named M u id s parent name a) :
    Gives (M.lookup parent name).run s fun r _ => r = .ok a ∨ ∃ text, r = .error (.io text) := by
  obtain ⟨path, found, walked, leads, rfl⟩ := named
  unfold Mount.lookup
  rw [gives_run_bind]
  apply (parentPath_gives parent s).mono
  rintro r t ⟨rfl, known⟩
  obtain rfl := (known path).mpr walked
  rw [sequel_ok, gives_run_bind, gives_onStoreOr]
  apply (resolve_again pinned coherent.store leads).mono
  rintro _ store ⟨partly, rfl | ⟨e, rfl⟩⟩
  · simp only [Except.mapError, sequel_ok, gives_run_bind]
    have projectionId : ({ t with store := store } : FsState ω).allocator.projectionId = id :=
      coherent.projectionId
    apply ((snapshotFor_sound pinned partly projectionId (joinPath path name) found).and
      (snapshotFor_errors found (joinPath path name))).mono
    rintro (e | answer) v ⟨⟨-, value⟩, errors⟩
    · obtain ⟨text, rfl⟩ := errors e rfl
      exact Or.inr ⟨text, rfl⟩
    · cases value answer rfl
      simp only [sequel_ok, gives_run_bind, gives_run_lift]
      exact Or.inl rfl
  · exact Or.inr ⟨_, rfl⟩

def Known (M : Mount ω) (s : FsState ω) (a : Attr) : Prop :=
  a = M.attr rootInode .directory 0 0o755 ∨ Recorded M s a

theorem Known.remembered (known : Known M s a) (remembers : Remembers s t) : Known M t a :=
  known.imp id fun recorded => recorded.remembered remembers

theorem getattr_known {i : UInt64} :
    Gives (M.getattr i).run s fun r _ => ∀ a, r = .ok a → Known M s a ∧ a.inode = i := by
  unfold Mount.getattr
  by_cases isRoot : i = rootInode
  · simp only [isRoot, if_true]
    rintro a ⟨⟩
    exact ⟨Or.inl rfl, rfl⟩
  · simp only [isRoot, if_false, gives_run_bind]
    cases there : s.attrs.lookup i with
    | none =>
      rw [gives_cachedSnapshot_none there]
      exact fun a impossible => by cases impossible
    | some snap =>
      simp only [gives_cachedSnapshot there, sequel_ok]
      rintro a ⟨⟩
      exact ⟨Or.inr (recorded_of_cached isRoot there), attrOf_inode M i snap⟩

theorem known_getattr (known : Known M s a) (req : Request) :
    ((getattr M.provider req a.inode).run.run s).1 =
      .ok ⟨attrTtl, toFuserAttr a req.uid req.gid⟩ := by
  rw [getattr_run]
  rcases known with rfl | recorded
  · rfl
  · have given : ((M.getattr a.inode).run.run s).1 = .ok a :=
      Answer.attr.inj (getattr_recorded recorded)
    rw [given]
    rfl

/-! ### What is kept stays true -/

/-- A kept reply is what the provider has under its key, apart from the owner. -/
def StillTrue (M : Mount ω) (u : Universe ω) (id : UInt64) (s : FsState ω) (key : CacheKey)
    (shown : FileAttr) : Prop :=
  ∃ a, shown = toFuserAttr a shown.uid shown.gid ∧ Known M s a ∧
    match key with
    | .attr ino => a.inode = ino
    | .entry parent name => Named M u id s parent name a

theorem StillTrue.remembered {key : CacheKey} {shown : FileAttr}
    (still : StillTrue M u id s key shown) (remembers : Remembers s t) :
    StillTrue M u id t key shown := by
  obtain ⟨a, shape, known, named⟩ := still
  refine ⟨a, shape, known.remembered remembers, ?_⟩
  cases key with
  | attr ino => exact named
  | entry parent name => exact Named.remembered named remembers

theorem mem_kept {req : Request} {action : FsAction ω} {key : CacheKey} {shown : FileAttr}
    (member : (key, shown) ∈ kept M s (req, action)) :
    ∃ a, shown = toFuserAttr a req.uid req.gid ∧
      ((∃ parent name, action = .lookup parent name ∧
          ((M.lookup parent name).run.run s).1 = .ok a ∧
          (key = .entry parent name ∨ key = .attr a.inode)) ∨
        ∃ ino, action = .getattr ino ∧ ((M.getattr ino).run.run s).1 = .ok a ∧
          key = .attr ino) := by
  cases action with
  | lookup parent name =>
    simp only [kept, lookup_run] at member
    cases found : ((M.lookup parent name).run.run s).1 with
    | error e => simp [found, Except.mapError, Except.map] at member
    | ok a =>
      simp only [found, Except.mapError, Except.map, List.mem_cons, Prod.mk.injEq,
        List.not_mem_nil, or_false] at member
      rcases member with ⟨rfl, rfl⟩ | ⟨rfl, rfl⟩
      · exact ⟨a, rfl, Or.inl ⟨parent, name, rfl, found, Or.inl rfl⟩⟩
      · exact ⟨a, rfl, Or.inl ⟨parent, name, rfl, found, Or.inr rfl⟩⟩
  | getattr ino =>
    simp only [kept, getattr_run] at member
    cases found : ((M.getattr ino).run.run s).1 with
    | error e => simp [found, Except.mapError, Except.map] at member
    | ok a =>
      simp only [found, Except.mapError, Except.map, List.mem_cons, Prod.mk.injEq,
        List.not_mem_nil, or_false] at member
      obtain ⟨rfl, rfl⟩ := member
      exact ⟨a, rfl, Or.inr ⟨ino, rfl, found, rfl⟩⟩
  | _ => cases member

theorem step_keeps (pinned : Pinned M u w₀ c) (distinct : DistinctKeys M.hasher id keys)
    {call : Upcall ω} (stepped : fuseStep M s call = some t)
    (listed : Listed M u keys told s call.2) (coherent : Coherent M u w₀ id keys told s) :
    Coherent M u w₀ id keys told t ∧
      (∀ key shown, StillTrue M u id s key shown → StillTrue M u id t key shown) ∧
      ∀ key shown, (key, shown) ∈ kept M s call → StillTrue M u id t key shown := by
  obtain ⟨coherentT, remembers, recorded⟩ :=
    step_coherent pinned distinct coherent stepped listed
  refine ⟨coherentT, fun key shown still => still.remembered remembers, ?_⟩
  obtain ⟨req, action⟩ := call
  intro key shown member
  obtain ⟨a, rfl, given⟩ := mem_kept member
  rcases given with ⟨parent, name, rfl, found, rfl | rfl⟩ | ⟨ino, rfl, found, rfl⟩
  · obtain ⟨path, entry, walked, names, -⟩ := (lookup_names pinned coherent parent name) a found
    exact ⟨a, rfl, Or.inr (recorded a (attrGiven_lookup.mpr found)), path, entry,
      walked.remembered remembers, names⟩
  · exact ⟨a, rfl, Or.inr (recorded a (attrGiven_lookup.mpr found)), rfl⟩
  · obtain ⟨known, same⟩ := (getattr_known (M := M) (s := s) (i := ino)) a found
    exact ⟨a, rfl, known.remembered remembers, same⟩

/-- In every run of the kernel over a mount of one commit: attributes that it may answer from its
    cache are those the provider has, apart from the owner; a name that it may answer from its
    cache would be found with the same attributes now, unless an object is not to be had; and the
    owner it shows is whoever asked, less than a day ago. -/
theorem kernel_caches_tell_the_truth {spec : MountSpec ω} {u : Universe ω} {store : Store ω}
    {M : Mount ω} {start : FsState ω} {moves : List (KernelMove ω)} {v : Kernel ω}
    (built : (spec.new.run.run store).1 = .ok (M, start))
    (pinned : ∀ name, M.projection ≠ .ref name) (answers : M.gix.Answers u)
    (honest : Honest M.gix u M.fetcher) (truthful : Truthful M.gix u (fun _ => True) store)
    (run : exec (kernelStep M) ⟨start, 0, []⟩ moves = some v)
    (gaining : Meets (fsStep M) (Gaining u) start (upcalls moves))
    (distinct : DistinctKeys M.hasher spec.projectionId
      (seen (fsStep M) (keyOf M) start (upcalls moves))) :
    (∀ ino shown, v.fresh (.attr ino) = some shown → ∃ a : Attr,
      shown = toFuserAttr a shown.uid shown.gid ∧
      ∀ req, ((getattr M.provider req ino).run.run v.server).1 =
        .ok ⟨attrTtl, toFuserAttr a req.uid req.gid⟩) ∧
    (∀ parent name shown, v.fresh (.entry parent name) = some shown → ∃ a : Attr,
      shown = toFuserAttr a shown.uid shown.gid ∧
      ∀ req, ((getattr M.provider req a.inode).run.run v.server).1 =
          .ok ⟨attrTtl, toFuserAttr a req.uid req.gid⟩ ∧
        (((lookup M.provider req parent name).run.run v.server).1 =
            .ok ⟨attrTtl, toFuserAttr a req.uid req.gid, generation⟩ ∨
          ((lookup M.provider req parent name).run.run v.server).1 = .error .eio)) ∧
    ∀ key shown, v.fresh key = some shown → ∃ before req action after mid,
      moves = before ++ .serve (req, action) :: after ∧
      exec (kernelStep M) ⟨start, 0, []⟩ before = some mid ∧
      (key, shown) ∈ kept M mid.server (req, action) ∧ v.now < mid.now + attrTtl ∧
      shown.uid = req.uid ∧ shown.gid = req.gid := by
  obtain ⟨c, ofCommit⟩ : ∃ c, OfCommit c M.projection := by
    cases projection : M.projection with
    | ref name => exact absurd projection (pinned name)
    | commit oid => exact ⟨oid, rfl⟩
    | subtree oid path => exact ⟨oid, rfl⟩
  have setting : Pinned M u store.world c :=
    ⟨answers, honest, ofCommit, start_resident built answers ofCommit⟩
  have listed : Meets (fsStep M) (Listed M u (seen (fsStep M) (keyOf M) start (upcalls moves))
      (seen (fsStep M) (attrGiven M) start (upcalls moves))) start (upcalls moves) :=
    meets_and gaining (meets_and (meets_seen (keyOf M) start (upcalls moves))
      (meets_seen (attrGiven M) start (upcalls moves)))
  obtain ⟨coherent, still⟩ := fresh_holds
    (fun s call t stepped listed coherent => step_keeps setting distinct stepped listed coherent)
    run (meets_map (f := Prod.snd) listed) (start_coherent built truthful _ _) rfl
  refine ⟨fun ino shown fresh => ?_, fun parent name shown fresh => ?_, fun key shown fresh => ?_⟩
  · obtain ⟨a, shape, known, rfl⟩ := still _ _ fresh
    exact ⟨a, shape, known_getattr known⟩
  · obtain ⟨a, shape, known, named⟩ := still _ _ fresh
    refine ⟨a, shape, fun req => ⟨known_getattr known req, ?_⟩⟩
    rw [lookup_run]
    rcases lookup_again setting coherent named with found | ⟨text, failed⟩
    · exact Or.inl (by rw [found]; rfl)
    · exact Or.inr (by rw [failed]; rfl)
  · obtain ⟨before, ⟨req, action⟩, after, mid, split, here, member, recent⟩ :=
      fresh_told run rfl fresh
    obtain ⟨a, rfl, -⟩ := mem_kept member
    exact ⟨before, req, action, after, mid, split, here, member, recent, rfl, rfl⟩

end
/-! ### Files, read piece by piece -/

structure Piece where
  ino : UInt64
  offset : Nat
  size : Nat
  bytes : Bytes
  deriving DecidableEq

section
variable {ω : Type} (M : Mount ω) (u : Universe ω)

def pieceRead (s : FsState ω) : FsAction ω → Option Piece
  | .read ino offset size =>
    (((read M.provider ino offset size).run.run s).1.toOption).map (⟨ino, offset, size, ·⟩)
  | _ => none

def targetRead (s : FsState ω) : FsAction ω → Option (UInt64 × Bytes)
  | .readlink ino => (((readlink M.provider ino).run.run s).1.toOption).map (ino, ·)
  | _ => none

def foundThere (s : FsState ω) (action : FsAction ω) : Option (Attr × ResolvedEntry) := do
  let a ← attrGiven M s action
  let key ← keyOf M s action
  return (a, key.2)

def dataOf (oid : ObjectId) : Bytes := ((u.object oid).map Object.data).getD []

def bytesOf : ResolvedEntry → Bytes
  | .tree e => dataOf u e.oid
  | .synthetic _ (.file content _) => content
  | .synthetic _ (.symlink target) => target
  | .synthetic _ (.directory _) => []

def contentOf : AttrSnapshot → Bytes
  | .treeFile oid _ _ | .treeSymlink oid _ => dataOf u oid
  | .syntheticFile content _ => content
  | .syntheticSymlink target => target
  | _ => []

end

/-- Reads from `start` on, each of any size and resumed where the last one ended, up to one that
    gives nothing. -/
inductive Resumed (ino : UInt64) : Nat → List Piece → Prop
  | ended {start size} (asked : 0 < size) : Resumed ino start [⟨ino, start, size, []⟩]
  | resumed {start size bytes rest} (later : Resumed ino (start + bytes.length) rest) :
      Resumed ino start (⟨ino, start, size, bytes⟩ :: rest)

theorem Resumed.ino {ino : UInt64} {start : Nat} {pieces : List Piece}
    (resumed : Resumed ino start pieces) : ∀ p ∈ pieces, p.ino = ino := by
  induction resumed with
  | ended asked =>
    intro p member
    rw [List.mem_singleton.mp member]
  | resumed later ih =>
    intro p member
    rcases List.mem_cons.mp member with rfl | behind
    · rfl
    · exact ih p behind

theorem sliceBlob_eq (content : Bytes) (offset size : Nat) :
    sliceBlob content offset size = (content.drop offset).take size := by
  unfold sliceBlob
  rcases Nat.le_total offset content.length with inside | beyond
  · rw [Nat.min_eq_left inside, List.drop_take, List.take_eq_take_iff, List.length_drop]
    omega
  · rw [Nat.min_eq_right beyond, List.drop_eq_nil_of_le beyond, List.take_nil]
    exact List.drop_eq_nil_of_le (by rw [List.length_take]; omega)

/-- Reading on until nothing comes gives the rest of the file. -/
theorem Resumed.join {ino : UInt64} {start : Nat} {pieces : List Piece} {content : Bytes}
    (resumed : Resumed ino start pieces)
    (slices : ∀ p ∈ pieces, p.bytes = sliceBlob content p.offset p.size) :
    (pieces.map Piece.bytes).flatten = content.drop start := by
  induction resumed with
  | @ended start size asked =>
    have nothing := slices _ (List.mem_singleton.mpr rfl)
    rw [sliceBlob_eq] at nothing
    change [] = (content.drop start).take size at nothing
    have short := congrArg List.length nothing
    rw [List.length_take, List.length_drop, List.length_nil] at short
    rw [List.drop_eq_nil_of_le (by omega)]
    rfl
  | @resumed start size bytes rest later ih =>
    have here := slices _ List.mem_cons_self
    rw [sliceBlob_eq] at here
    change bytes = (content.drop start).take size at here
    have front : bytes = (content.drop start).take bytes.length := by
      rcases Nat.le_total size (content.drop start).length with less | more
      · rw [here, List.length_take, Nat.min_eq_left less]
      · rw [here, List.take_of_length_le more, List.take_length]
    have later : (rest.map Piece.bytes).flatten = (content.drop start).drop bytes.length := by
      rw [List.drop_drop, ih fun p member => slices p (List.mem_cons_of_mem _ member)]
    calc bytes ++ (rest.map Piece.bytes).flatten
        = (content.drop start).take bytes.length ++ (content.drop start).drop bytes.length := by
          rw [← front, later]
      _ = content.drop start := List.take_append_drop _ _

section
variable {ω : Type} {M : Mount ω} {u : Universe ω} {w₀ : ω} {c : ObjectId} {id : UInt64}
  {keys : List (Bytes × ResolvedEntry)} {told : List Attr} {s t : FsState ω} {i : UInt64}

theorem objectSize_eq (oid : ObjectId) : objectSize u oid = (dataOf u oid).length := by
  unfold objectSize dataOf
  cases u.object oid <;> rfl

theorem dataOf_blob {oid : ObjectId} {bytes : Bytes}
    (blob : blobOf oid (u.object oid) = .ok bytes) : bytes = dataOf u oid := by
  rw [dataOf, blobOf_eq_ok blob]
  rfl

theorem read_content (pinned : Pinned M u w₀ c) (coherent : Coherent M u w₀ id keys told s)
    (offset size : Nat) :
    Gives (M.read i offset size).run s fun r _ => ∀ bytes, r = .ok bytes →
      ∃ snap, s.attrs.lookup i = some snap ∧ bytes = sliceBlob (contentOf u snap) offset size := by
  unfold Mount.read
  rw [gives_run_bind]
  cases there : s.attrs.lookup i with
  | none =>
    rw [gives_cachedSnapshot_none there]
    exact fun bytes impossible => by cases impossible
  | some snap =>
    rw [gives_cachedSnapshot there, sequel_ok]
    cases snap with
    | treeFile oid n mode =>
      simp only [gives_run_bind, gives_onStoreOr]
      apply (sound_read (blobOf_readOf oid) pinned.honest (readBlob_plain pinned.answers oid)
        coherent.store).mono
      rintro (e | data) store ⟨-, blob⟩
      · exact fun bytes impossible => by cases impossible
      · rintro bytes ⟨⟩
        exact ⟨_, rfl, by rw [contentOf, ← dataOf_blob (blob data rfl)]⟩
    | syntheticFile content mode =>
      rintro bytes ⟨⟩
      exact ⟨_, rfl, rfl⟩
    | _ => exact fun bytes impossible => by cases impossible

theorem readlink_content (pinned : Pinned M u w₀ c)
    (coherent : Coherent M u w₀ id keys told s) :
    Gives (M.readlink i).run s fun r _ => ∀ bytes, r = .ok bytes →
      ∃ snap, s.attrs.lookup i = some snap ∧ bytes = contentOf u snap := by
  unfold Mount.readlink
  rw [gives_run_bind]
  cases there : s.attrs.lookup i with
  | none =>
    rw [gives_cachedSnapshot_none there]
    exact fun bytes impossible => by cases impossible
  | some snap =>
    rw [gives_cachedSnapshot there, sequel_ok]
    cases snap with
    | treeSymlink oid n =>
      simp only [gives_onStoreOr]
      apply (sound_read (blobOf_readOf oid) pinned.honest (readBlob_plain pinned.answers oid)
        coherent.store).mono
      rintro (e | data) store ⟨-, blob⟩
      · exact fun bytes impossible => by cases impossible
      · rintro bytes ⟨⟩
        exact ⟨_, rfl, dataOf_blob (blob data rfl)⟩
    | syntheticSymlink target =>
      rintro bytes ⟨⟩
      exact ⟨_, rfl, rfl⟩
    | _ => exact fun bytes impossible => by cases impossible

/-- The size in the attributes is that of the content, and both are those of the entry. -/
theorem content_of_key (full : Bytes) (found : ResolvedEntry)
    (leaf : (attrOf M i (snapshotOf u full found)).kind ≠ .directory) :
    contentOf u (snapshotOf u full found) = bytesOf u found ∧
      (attrOf M i (snapshotOf u full found)).size = (bytesOf u found).length := by
  rcases found with e | ⟨label, content | children | target⟩
  · cases mode : e.mode <;> simp only [snapshotOf, mode] at leaf ⊢
    · exact ⟨rfl, objectSize_eq e.oid⟩
    · exact ⟨rfl, objectSize_eq e.oid⟩
    · exact ⟨rfl, objectSize_eq e.oid⟩
    · exact absurd rfl leaf
    · exact absurd rfl leaf
  · exact ⟨rfl, rfl⟩
  · exact absurd rfl leaf
  · exact ⟨rfl, rfl⟩

theorem around_step {start mid : FsState ω} {actions before after : List (FsAction ω)}
    {action : FsAction ω} (pinned : Pinned M u w₀ c) (distinct : DistinctKeys M.hasher id keys)
    (run : exec (fsStep M) start actions = some s)
    (listed : Meets (fsStep M) (Listed M u keys told) start actions)
    (fresh : Coherent M u w₀ id keys told start) (split : actions = before ++ action :: after)
    (here : exec (fsStep M) start before = some mid) :
    Coherent M u w₀ id keys told mid ∧ Listed M u keys told mid action ∧ Remembers mid s ∧
      ∃ t, fsStep M mid action = some t ∧ Remembers t s := by
  subst split
  have keeps : ∀ s a t, fsStep M s a = some t → Listed M u keys told s a →
      Coherent M u w₀ id keys told s → Coherent M u w₀ id keys told t := fun s a t stepped listed
    coherent => (step_coherent pinned distinct coherent stepped listed).1
  obtain ⟨listedBefore, listedMid⟩ := meets_append here listed
  have coherent := exec_keeps_meeting keeps here listedBefore fresh
  obtain ⟨mid', same, rest⟩ := exec_append_some run
  cases here.symm.trans same
  obtain ⟨t, stepped, tail⟩ := exec_cons rest
  obtain ⟨coherentT, remembers, -⟩ := step_coherent pinned distinct coherent stepped listedMid.1
  have onward : Coherent M u w₀ id keys told s ∧ Remembers t s := by
    have stays : ∀ v a v', fsStep M v a = some v' → Listed M u keys told v a →
        Coherent M u w₀ id keys told v ∧ Remembers t v →
        Coherent M u w₀ id keys told v' ∧ Remembers t v' := by
      rintro v a v' stepped listed ⟨coherent, since⟩
      obtain ⟨coherentV, remembers, -⟩ := step_coherent pinned distinct coherent stepped listed
      exact ⟨coherentV, fun k snap cached => remembers k snap (since k snap cached)⟩
    exact exec_keeps_meeting stays tail (listedMid.2 t stepped)
      ⟨coherentT, fun _ _ cached => cached⟩
  exact ⟨coherent, listedMid.1, fun k snap cached => onward.2 k snap (remembers k snap cached), t,
    stepped, onward.2⟩

def heldContent (u : Universe ω) (s : FsState ω) (i : UInt64) : Bytes :=
  ((s.attrs.lookup i).map (contentOf u)).getD []

theorem heldContent_of_cached {snap : AttrSnapshot} (cached : s.attrs.lookup i = some snap) :
    heldContent u s i = contentOf u snap := by
  rw [heldContent, cached]
  rfl

theorem pieceRead_eq {action : FsAction ω} {p : Piece} (shown : pieceRead M s action = some p) :
    action = .read p.ino p.offset p.size ∧
      ((M.read p.ino p.offset p.size).run.run s).1 = .ok p.bytes := by
  cases action with
  | read ino offset size =>
    have ran : ((read M.provider ino offset size).run.run s).1 =
        ((M.read ino offset size).run.run s).1.mapError errnoFor := rfl
    simp only [pieceRead, ran] at shown
    cases answer : ((M.read ino offset size).run.run s).1 with
    | error e => simp [answer, Except.mapError, Except.toOption] at shown
    | ok bytes =>
      rw [answer] at shown
      cases Option.some.inj shown
      exact ⟨rfl, answer⟩
  | _ => cases shown

theorem targetRead_eq {action : FsAction ω} {l : UInt64 × Bytes}
    (shown : targetRead M s action = some l) :
    action = .readlink l.1 ∧ ((M.readlink l.1).run.run s).1 = .ok l.2 := by
  cases action with
  | readlink ino =>
    have ran : ((readlink M.provider ino).run.run s).1 =
        ((M.readlink ino).run.run s).1.mapError errnoFor := rfl
    simp only [targetRead, ran] at shown
    cases answer : ((M.readlink ino).run.run s).1 with
    | error e => simp [answer, Except.mapError, Except.toOption] at shown
    | ok bytes =>
      rw [answer] at shown
      cases Option.some.inj shown
      exact ⟨rfl, answer⟩
  | _ => cases shown

theorem foundThere_eq {action : FsAction ω} {a : Attr} {found : ResolvedEntry}
    (shown : foundThere M s action = some (a, found)) :
    ∃ parent name full, action = .lookup parent name ∧
      ((M.lookup parent name).run.run s).1 = .ok a ∧ keyOf M s action = some (full, found) := by
  obtain ⟨a', given, shown⟩ := Option.bind_eq_some_iff.mp shown
  obtain ⟨⟨full, found'⟩, key, shown⟩ := Option.bind_eq_some_iff.mp shown
  cases Option.some.inj shown
  cases action with
  | lookup parent name => exact ⟨parent, name, full, rfl, attrGiven_lookup.mp given, key⟩
  | _ => cases given

/-- In every run over one commit each inode has one content: what is read of it, whenever and in
    whatever pieces, is cut from it; the size that is told is its length; it is the blob (or the
    overlay's bytes) that the name stands for; and reading on until nothing comes gives it all. -/
theorem files_are_read_whole {spec : MountSpec ω} {u : Universe ω} {store : Store ω} {M : Mount ω}
    {start s : FsState ω} {actions : List (FsAction ω)}
    (built : (spec.new.run.run store).1 = .ok (M, start))
    (pinned : ∀ name, M.projection ≠ .ref name) (answers : M.gix.Answers u)
    (honest : Honest M.gix u M.fetcher) (truthful : Truthful M.gix u (fun _ => True) store)
    (run : exec (fsStep M) start actions = some s)
    (gaining : Meets (fsStep M) (Gaining u) start actions)
    (distinct : DistinctKeys M.hasher spec.projectionId
      (seen (fsStep M) (keyOf M) start actions)) :
    ∃ content : UInt64 → Bytes,
      (∀ p ∈ seen (fsStep M) (pieceRead M) start actions,
        p.bytes = sliceBlob (content p.ino) p.offset p.size) ∧
      (∀ l ∈ seen (fsStep M) (targetRead M) start actions, l.2 = content l.1) ∧
      (∀ a found, (a, found) ∈ seen (fsStep M) (foundThere M) start actions →
        a.kind ≠ .directory →
          content a.inode = bytesOf u found ∧ a.size = (content a.inode).length) ∧
      ∀ ino pieces, (∀ p ∈ pieces, p ∈ seen (fsStep M) (pieceRead M) start actions) →
        Resumed ino 0 pieces → (pieces.map Piece.bytes).flatten = content ino := by
  obtain ⟨c, ofCommit⟩ : ∃ c, OfCommit c M.projection := by
    cases projection : M.projection with
    | ref name => exact absurd projection (pinned name)
    | commit oid => exact ⟨oid, rfl⟩
    | subtree oid path => exact ⟨oid, rfl⟩
  have setting : Pinned M u store.world c :=
    ⟨answers, honest, ofCommit, start_resident built answers ofCommit⟩
  have listed : Meets (fsStep M) (Listed M u (seen (fsStep M) (keyOf M) start actions)
      (seen (fsStep M) (attrGiven M) start actions)) start actions :=
    meets_and gaining (meets_and (meets_seen (keyOf M) start actions)
      (meets_seen (attrGiven M) start actions))
  have fresh := start_coherent built truthful (seen (fsStep M) (keyOf M) start actions)
    (seen (fsStep M) (attrGiven M) start actions)
  obtain ⟨coherentS, recorded⟩ := run_coherent setting distinct run gaining fresh
  have pieces : ∀ p ∈ seen (fsStep M) (pieceRead M) start actions,
      p.bytes = sliceBlob (heldContent u s p.ino) p.offset p.size := by
    intro p member
    obtain ⟨before, action, after, mid, split, here, shown⟩ := mem_seen.mp member
    obtain ⟨rfl, answer⟩ := pieceRead_eq shown
    obtain ⟨coherent, -, remembers, -⟩ := around_step setting distinct run listed fresh split here
    obtain ⟨snap, cached, same⟩ := read_content setting coherent p.offset p.size _ answer
    rw [heldContent_of_cached (remembers _ _ cached), same]
  refine ⟨heldContent u s, pieces, fun l member => ?_, fun a found member leaf => ?_,
    fun ino chosen among resumed => ?_⟩
  · obtain ⟨before, action, after, mid, split, here, shown⟩ := mem_seen.mp member
    obtain ⟨rfl, answer⟩ := targetRead_eq shown
    obtain ⟨coherent, -, remembers, -⟩ := around_step setting distinct run listed fresh split here
    obtain ⟨snap, cached, same⟩ := readlink_content setting coherent _ answer
    rw [heldContent_of_cached (remembers _ _ cached), same]
  · obtain ⟨before, action, after, mid, split, here, shown⟩ := mem_seen.mp member
    obtain ⟨parent, name, full, rfl, answer, key⟩ := foundThere_eq shown
    obtain ⟨coherent, ⟨-, used, told⟩, -⟩ :=
      around_step setting distinct run listed fresh split here
    obtain ⟨path, entry, -, names, asked⟩ := lookup_names setting coherent parent name a answer
    cases key.symm.trans asked
    obtain ⟨inner, snap, cached, -⟩ := recorded a (told a (attrGiven_lookup.mpr answer))
    obtain ⟨p, f, keyed⟩ := coherentS.keyed a.inode snap inner cached
    have inode : a.inode = inodeOf M.hasher spec.projectionId (joinPath path name) found := by
      rw [names.attr, attrOf_inode]
    have same := keyed.snapshot_unique distinct ⟨used _ key, names.leads, inode, rfl⟩
    rw [names.attr] at leaf
    obtain ⟨content, size⟩ := content_of_key (joinPath path name) found leaf
    rw [heldContent_of_cached cached, same, content]
    refine ⟨rfl, ?_⟩
    rw [names.attr]
    exact size
  · have slices : ∀ p ∈ chosen, p.bytes = sliceBlob (heldContent u s ino) p.offset p.size := by
      intro p member
      rw [pieces p (among p member), resumed.ino p member]
    exact resumed.join slices

end
section Sample
open ProjgitTables

theorem clone_pinned : ∀ name, cloneMount.projection ≠ .ref name := fun name isRef => by
  cases isRef

/-- One user looks `a` up, whose blob is fetched for its size; ten seconds later another one is
    answered from the cache. -/
def sampleMoves : List (KernelMove World) :=
  [.serve (⟨1000, 100⟩, .lookup rootInode (ascii "a")), .elapse 10,
    .reuse (.entry rootInode (ascii "a"))]

theorem sampleMoves_result :
    ((exec (kernelStep cloneMount) ⟨cloneStart (fixtureId 4), 0, []⟩ sampleMoves).bind fun v =>
      (v.fresh (.entry rootInode (ascii "a"))).map fun shown =>
        (v.now, shown.uid, shown.gid, shown.size, shown.blocks)) =
      some (10, 1000, 100, 3, 1) := by
  decide +kernel

theorem other_user_is_shown_the_first : ∃ v shown, ∃ a : Attr,
    exec (kernelStep cloneMount) ⟨cloneStart (fixtureId 4), 0, []⟩ sampleMoves = some v ∧
    v.fresh (.entry rootInode (ascii "a")) = some shown ∧ shown.uid = 1000 ∧
    shown = toFuserAttr a shown.uid shown.gid ∧
    ((getattr cloneMount.provider ⟨1001, 100⟩ a.inode).run.run v.server).1 =
      .ok ⟨attrTtl, toFuserAttr a 1001 100⟩ := by
  have other : fixtureId 4 ≠ fixtureId 1 := by decide
  obtain ⟨v, run, result⟩ := Option.bind_eq_some_iff.mp sampleMoves_result
  obtain ⟨shown, fresh, result⟩ := Option.map_eq_some_iff.mp result
  obtain ⟨-, owner⟩ := Prod.mk.inj result
  obtain ⟨uid, -⟩ := Prod.mk.inj owner
  have distinct : DistinctKeys cloneMount.hasher cloneSpec.projectionId
      (seen (fsStep cloneMount) (keyOf cloneMount) (cloneStart (fixtureId 4))
        (upcalls sampleMoves)) :=
    distinctKeys_of_apart (by decide +kernel)
  obtain ⟨-, entries, -⟩ := kernel_caches_tell_the_truth (clone_built other) clone_pinned
    sampleTables.answers sampleTables.remote_honest (truthful_new _ _ _ _ _ _ _ _) run
    ⟨trivial, fun _ _ => trivial⟩ distinct
  obtain ⟨a, shape, now⟩ := entries _ _ shown fresh
  exact ⟨v, shown, a, run, fresh, uid, shape, (now ⟨1001, 100⟩).1⟩

def inodeA : UInt64 := hashTree sipHash 7 (fixtureId 4) (ascii "a")

def sampleReads : List (FsAction World) :=
  [.lookup rootInode (ascii "a"), .read inodeA 0 2, .work, .read inodeA 2 2, .read inodeA 3 2]

theorem sampleReads_result :
    seen (fsStep cloneMount) (pieceRead cloneMount) (cloneStart (fixtureId 4)) sampleReads =
      [⟨inodeA, 0, 2, ascii "hi"⟩, ⟨inodeA, 2, 2, ascii "\n"⟩, ⟨inodeA, 3, 2, []⟩] := by
  decide +kernel

theorem sample_is_read_whole : ∃ content : UInt64 → Bytes, content inodeA = ascii "hi\n" ∧
    ∀ p ∈ seen (fsStep cloneMount) (pieceRead cloneMount) (cloneStart (fixtureId 4)) sampleReads,
      p.bytes = sliceBlob (content p.ino) p.offset p.size := by
  have other : fixtureId 4 ≠ fixtureId 1 := by decide
  obtain ⟨s, run⟩ : ∃ s, exec (fsStep cloneMount) (cloneStart (fixtureId 4)) sampleReads =
      some s := ⟨_, rfl⟩
  have distinct : DistinctKeys cloneMount.hasher cloneSpec.projectionId
      (seen (fsStep cloneMount) (keyOf cloneMount) (cloneStart (fixtureId 4)) sampleReads) :=
    distinctKeys_of_apart (by decide +kernel)
  obtain ⟨content, pieces, -, -, whole⟩ := files_are_read_whole (clone_built other) clone_pinned
    sampleTables.answers sampleTables.remote_honest (truthful_new _ _ _ _ _ _ _ _) run
    ⟨trivial, fun _ _ => ⟨trivial, fun _ _ => ⟨trivial, fun _ _ => ⟨trivial, fun _ _ =>
      ⟨trivial, fun _ _ => trivial⟩⟩⟩⟩⟩ distinct
  have resumed : Resumed inodeA 0
      [⟨inodeA, 0, 2, ascii "hi"⟩, ⟨inodeA, 2, 2, ascii "\n"⟩, ⟨inodeA, 3, 2, []⟩] :=
    .resumed (.resumed (.ended (by decide)))
  refine ⟨content, ?_, pieces⟩
  rw [← whole inodeA _ (fun p member => sampleReads_result ▸ member) resumed]
  decide

end Sample
end ProjgitFuse
