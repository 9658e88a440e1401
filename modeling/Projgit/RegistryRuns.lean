import Projgit.Lib.Runs
import Projgit.RegistryChange

/-!
Whole histories of the control plane. `live` replays a history: a mountpoint is live from a
`Mount` that was answered `Ok` to the `Umount` that was.
-/
namespace ProjgitRegistry
open Utf8Bytes ProjgitStore ProjgitProtocol LabelledRuns

structure Call where
  request : Request
  host : Host

structure Exchange where
  call : Call
  before : DaemonState
  reply : Option Response
  after : DaemonState

structure Log where
  state : DaemonState
  past : List Exchange

def Log.start : Log := ⟨.new, []⟩

def record (setup : Setup) (log : Log) (call : Call) : Option Log :=
  let answer := dispatch setup call.host call.request log.state
  some ⟨answer.2, log.past ++ [⟨call, log.state, answer.1, answer.2⟩]⟩

def track (mounted : List PathBuf) (e : Exchange) : List PathBuf :=
  match e.call.request, e.reply with
  | .mount _ _ mountpoint _ _, some .ok =>
    match e.call.host.canonicalize mountpoint with
    | .ok path => path :: mounted
    | .error _ => mounted
  | .umount mountpoint, some .ok =>
    match e.call.host.canonicalize mountpoint with
    | .ok path => mounted.filter (· ≠ path)
    | .error _ => mounted
  | _, _ => mounted

def live (past : List Exchange) : List PathBuf := past.foldl track []

section
variable {setup : Setup} {host : Host} {request : Request} {s : DaemonState} {answer : Answer}
  {mounted : List PathBuf}

theorem keys_erase_filter {α : Type} [DecidableEq α] {β : α → Type} (m : AList β) (a : α) :
    (m.erase a).keys = m.keys.filter (· ≠ a) := by
  rw [AList.keys_erase, m.keys_nodup.erase_eq_filter]
  simp [bne, beq_eq_decide]

theorem live_snoc (past : List Exchange) (e : Exchange) :
    live (past ++ [e]) = track (live past) e := by
  simp [live, List.foldl_append]

theorem track_of_quiet {r : Response} {t : DaemonState} (quiet : Quiet request r) :
    track mounted ⟨⟨request, host⟩, s, some r, t⟩ = mounted := by
  cases request with
  | mount source refName mountpoint noDotgit allowOther =>
    obtain ⟨code, message, rfl⟩ := quiet
    rfl
  | umount mountpoint =>
    obtain ⟨code, message, rfl⟩ := quiet
    rfl
  | ping | status | shutdown | attach | fetch | prefetchHeaders | fetchMany => rfl

theorem track_of_none {t : DaemonState} :
    track mounted ⟨⟨request, host⟩, s, none, t⟩ = mounted := by
  cases request <;> rfl

/-- One more exchange: the replay and the registry change together, while no lock is poisoned. -/
theorem Change.listed (change : Change setup host request s answer)
    (unique : mounted.Nodup) (listed : s.poisoned = false → mounted.Perm s.mounts.keys) :
    (track mounted ⟨⟨request, host⟩, s, answer.1, answer.2⟩).Nodup ∧
      (answer.2.poisoned = false →
        (track mounted ⟨⟨request, host⟩, s, answer.1, answer.2⟩).Perm answer.2.mounts.keys) := by
  cases change with
  | told quiet =>
    rw [track_of_quiet quiet]
    exact ⟨unique, listed⟩
  | @denied _ _ _ _ _ s t u repo _ _ _ canonical unpoisoned opens fails reached =>
    have same : t.mounts = s.mounts := by
      rw [← opens.repo_mounts]
      obtain rfl | rfl := reached
      · simp [DaemonState.mounts, opens.active]
      · simp [DaemonState.mounts, DaemonState.nextProjectionId, opens.active]
    exact ⟨unique, fun _ => same ▸ listed unpoisoned⟩
  | @mounted _ refName _ _ _ s u repo path canonical unpoisoned opens free =>
    have before := listed unpoisoned
    rw [opens.repo_mounts] at free
    have fresh : path ∉ mounted := fun member => free (before.subset member)
    simp only [track, canonical]
    refine ⟨List.nodup_cons.mpr ⟨fresh, unique⟩, fun _ => ?_⟩
    have keys : (s.mounts.insert path ⟨refName, u.nextId⟩).keys = path :: s.mounts.keys := by
      rw [AList.keys, AList.entries_insert_of_notMem free]
      rfl
    rw [register_mounts, opens.repo_mounts, keys]
    exact before.cons path
  | @attached _ s u repo unpoisoned opens =>
    have same : u.mounts = s.mounts := by
      rw [← opens.repo_mounts]
      simp [DaemonState.mounts, opens.active]
    exact ⟨unique, fun _ => same ▸ listed unpoisoned⟩
  | @removed _ s repo path canonical unpoisoned active held =>
    have before := listed unpoisoned
    simp only [track, canonical]
    refine ⟨unique.filter _, fun _ => ?_⟩
    have keys : s.mounts.keys = repo.mounts.keys := by simp [DaemonState.mounts, active]
    rw [keys] at before
    exact keys_erase_filter repo.mounts path ▸ before.filter _
  | crashed named stage =>
    simp only [DaemonState.panicked]
    rw [track_of_none]
    exact ⟨unique, fun clean => absurd clean Bool.true_eq_false.mp⟩
  | blocked poisoned => exact ⟨unique, fun clean => absurd clean Bool.true_eq_false.mp⟩
  | stopped => exact ⟨unique, listed⟩

theorem Change.attached_binding (change : Change setup host request s answer) {gitDir : PathBuf}
    (replied : answer.1 = some (.attached gitDir)) :
    ∃ source, answer.2.binding = some (source, gitDir) := by
  cases change with
  | @told request s r quiet =>
    cases Option.some.inj replied
    cases request with
    | mount | umount | attach => obtain ⟨code, message, same⟩ := quiet; cases same
    | ping | status | shutdown | fetch | prefetchHeaders | fetchMany => exact absurd rfl (quiet gitDir)
  | attached unpoisoned opens =>
    cases Option.some.inj replied
    exact ⟨_, opens.binding⟩
  | denied | mounted | removed | stopped => cases Option.some.inj replied
  | crashed | blocked => cases replied

theorem Opens.poisoned {source : String} {u : DaemonState} {repo : ActiveRepo}
    (opens : Opens setup host source s u repo) : u.poisoned = s.poisoned := by
  cases opens with
  | already active same => rfl
  | first unbound opened => rfl

/-- Only a panic of a `Mount` or an `Attach` poisons the lock. -/
theorem Change.poisons (change : Change setup host request s answer)
    (after : answer.2.poisoned = true) :
    s.poisoned = true ∨ (answer.1 = none ∧ (sourceOf request).isSome) := by
  cases change with
  | told quiet => exact .inl after
  | denied canonical unpoisoned opens fails reached =>
    obtain rfl | rfl := reached
    · exact .inl (opens.poisoned ▸ after)
    · exact .inl (opens.poisoned ▸ after)
  | mounted canonical unpoisoned opens free => exact .inl (opens.poisoned ▸ after)
  | attached unpoisoned opens => exact .inl (opens.poisoned ▸ after)
  | removed canonical unpoisoned active held => exact .inl after
  | crashed named stage => exact .inr ⟨rfl, named ▸ rfl⟩
  | blocked poisoned => exact .inl poisoned
  | stopped => exact .inl after

structure Sound (log : Log) : Prop where
  numbered : Numbered log.state
  attached : ∀ e ∈ log.past, ∀ gitDir, e.reply = some (.attached gitDir) →
    ∃ source, log.state.binding = some (source, gitDir)
  unique : (live log.past).Nodup
  listed : log.state.poisoned = false → (live log.past).Perm log.state.mounts.keys
  crash : log.state.poisoned = true →
    ∃ e ∈ log.past, e.reply = none ∧ (sourceOf e.call.request).isSome

theorem start_sound : Sound .start := by
  refine ⟨new_numbered, ?_, List.nodup_nil, fun _ => List.Perm.nil, ?_⟩
  · intro e member
    cases member
  · intro poisoned
    cases poisoned

theorem record_sound {log next : Log} {call : Call} (taken : record setup log call = some next)
    (sound : Sound log) : Sound next := by
  cases Option.some.inj taken
  have change := dispatch_change setup call.host call.request log.state
  have listed := change.listed sound.unique sound.listed
  refine ⟨change.numbered sound.numbered, ?_, ?_, ?_, ?_⟩
  · intro e member gitDir replied
    obtain earlier | now := List.mem_append.mp member
    · obtain ⟨source, bound⟩ := sound.attached e earlier gitDir replied
      exact ⟨source, change.keeps_binding bound⟩
    · cases List.mem_singleton.mp now
      exact change.attached_binding replied
  · rw [live_snoc]
    exact listed.1
  · rw [live_snoc]
    exact listed.2
  · intro poisoned
    obtain before | crashed := change.poisons poisoned
    · obtain ⟨e, member, silent⟩ := sound.crash before
      exact ⟨e, List.mem_append_left _ member, silent⟩
    · exact ⟨_, List.mem_append_right _ (List.mem_singleton.mpr rfl), crashed⟩

theorem run_sound {calls : List Call} {log : Log}
    (run : exec (record setup) .start calls = some log) : Sound log :=
  exec_keeps (fun _ _ _ taken sound => record_sound taken sound) run start_sound

theorem run_binding {calls : List Call} {log later : Log}
    (run : exec (record setup) log calls = some later) {bound : String × PathBuf}
    (before : log.state.binding = some bound) : later.state.binding = some bound := by
  have keeps : ∀ log call next, record setup log call = some next →
      log.state.binding = some bound → next.state.binding = some bound := by
    intro log call next taken before
    cases Option.some.inj taken
    exact (dispatch_change setup call.host call.request log.state).keeps_binding before
  exact exec_keeps keeps run before

/- Status. -/

theorem issued_nodup (numbered : Numbered s) (few : s.issued.length ≤ 2 ^ 64) :
    s.issued.Nodup := by
  rw [numbered.issued]
  refine List.Nodup.map_on ?_ List.nodup_range
  intro i inside j inside' same
  rw [List.mem_range] at inside inside'
  have values := congrArg UInt64.toNat same
  simp only [UInt64.toNat_ofNat'] at values
  omega

theorem mountInfos_paths (mounts : Mounts) :
    (mountInfos mounts).map MountInfo.mountpoint = mounts.keys := by
  simp only [mountInfos, List.map_map]
  rfl

theorem mountInfos_ids (mounts : Mounts) :
    (mountInfos mounts).map MountInfo.projectionId = mountIds mounts := by
  simp only [mountInfos, List.map_map]
  rfl

def byId (a b : MountInfo) : Bool := a.projectionId ≤ b.projectionId

theorem status_mounts (host : Host) (s : DaemonState) :
    (status host s).mounts = (mountInfos s.mounts).mergeSort byId := by
  unfold status DaemonState.mounts
  cases s.active with
  | none => simp [mountInfos]
  | some repo => rfl

theorem status_sorted (host : Host) (s : DaemonState) :
    (status host s).mounts.Pairwise fun a b => a.projectionId ≤ b.projectionId := by
  rw [status_mounts]
  refine (List.pairwise_mergeSort ?_ ?_ _).imp ?_
  · intro a b c ab bc
    simp only [byId, decide_eq_true_eq] at ab bc ⊢
    exact UInt64.le_trans ab bc
  · intro a b
    simpa [byId] using UInt64.le_total a.projectionId b.projectionId
  · intro a b before
    simpa [byId] using before

theorem status_increasing (host : Host) (numbered : Numbered s)
    (few : s.issued.length ≤ 2 ^ 64) :
    (status host s).mounts.Pairwise fun a b => a.projectionId < b.projectionId := by
  have ids : ((status host s).mounts.map MountInfo.projectionId).Nodup := by
    have sorted := (List.mergeSort_perm (mountInfos s.mounts) byId).map MountInfo.projectionId
    rw [status_mounts, sorted.nodup_iff, mountInfos_ids]
    obtain ⟨chosen, same, inside⟩ := numbered.held
    exact same.nodup_iff.mp ((issued_nodup numbered few).sublist inside)
  have apart := List.pairwise_map.mp ids
  refine ((status_sorted host s).and apart).imp ?_
  intro a b both
  exact UInt64.lt_of_le_of_ne both.1 both.2

theorem status_paths (host : Host) (s : DaemonState) :
    ((status host s).mounts.map MountInfo.mountpoint).Perm s.mounts.keys := by
  rw [status_mounts, ← mountInfos_paths]
  exact (List.mergeSort_perm _ byId).map _

theorem status_source (host : Host) (s : DaemonState) :
    (status host s).source = s.binding.map Prod.fst := by
  unfold status DaemonState.binding
  cases s.active with
  | none => rfl
  | some repo => rfl

/-- The registry over whole histories. -/
theorem registry_invariant {calls : List Call} {log : Log}
    (run : exec (record setup) .start calls = some log) :
    (∀ more later, exec (record setup) log more = some later →
      ∀ bound, log.state.binding = some bound → later.state.binding = some bound) ∧
    (∀ e ∈ log.past, ∀ e' ∈ log.past, ∀ gitDir gitDir',
      e.reply = some (.attached gitDir) → e'.reply = some (.attached gitDir') →
        gitDir = gitDir') ∧
    (∀ host request source bound gitDir, sourceOf request = some source →
      log.state.binding = some (bound, gitDir) → bound ≠ source →
        ∃ code message,
          dispatch setup host request log.state = (some (.err code message), log.state)) ∧
    (live log.past).Nodup ∧
    (log.state.issued.length ≤ 2 ^ 64 → log.state.issued.Nodup) ∧
    ∀ host,
      (∃ report, dispatch setup host .status log.state = (some (.status report), log.state) ∧
        report.source = log.state.binding.map Prod.fst ∧
        (report.mounts.map MountInfo.mountpoint).Perm (live log.past) ∧
        (report.mounts.Pairwise fun a b => a.projectionId ≤ b.projectionId) ∧
        (log.state.issued.length ≤ 2 ^ 64 →
          report.mounts.Pairwise fun a b => a.projectionId < b.projectionId)) ∨
      ((dispatch setup host .status log.state).1 = none ∧
        ∃ e ∈ log.past, e.reply = none ∧ (sourceOf e.call.request).isSome) := by
  have sound := run_sound run
  refine ⟨fun more later continued bound before => run_binding continued before, ?_, ?_,
    sound.unique, issued_nodup sound.numbered, ?_⟩
  · intro e member e' member' gitDir gitDir' replied replied'
    obtain ⟨source, bound⟩ := sound.attached e member gitDir replied
    obtain ⟨source', bound'⟩ := sound.attached e' member' gitDir' replied'
    exact (Prod.mk.inj (Option.some.inj (bound.symm.trans bound'))).2
  · intro host request source bound gitDir named before other
    exact other_source_refused before named other
  · intro host
    cases poison : log.state.poisoned with
    | false =>
      refine .inl ⟨status host log.state, ?_, status_source host log.state, ?_,
        status_sorted host log.state, status_increasing host sound.numbered⟩
      · simp [dispatch, handleStatus, poison]
      · exact (status_paths host log.state).trans (sound.listed poison).symm
    | true =>
      refine .inr ⟨?_, sound.crash poison⟩
      simp [dispatch, handleStatus, poison, DaemonState.panicked]

end

/- A machine where every path is there, local stores open, `main` is the only branch, and
   mounting goes as FUSE does. -/

def firstCommit : ObjectId := ⟨List.replicate 20 0x11, rfl⟩

def onlyMain (refName : String) : Attempt ObjectId :=
  if refName = "main" then .ok firstCommit else .error (.error ("ref not found: " ++ refName))

def plainHost (fuse : Attempt Unit) : Host where
  canonicalize p := .ok p
  pathExists _ := true
  isDir _ := false
  varOs _ := none
  createDirAll _ := .ok ()
  partialClone _ := .ok ()
  openStore _ := .ok ()
  gitVersionOk := true
  resolveCommit _ refName := onlyMain refName
  a1PlusOverlay _ _ _ := .ok ()
  applyA2 _ _ _ := .ok ()
  rootTree _ refName := onlyMain refName
  newProvider _ refName := (onlyMain refName).map fun _ => ()
  mountBackground _ _ := fuse
  spawnOk := true
  cacheStats _ := ⟨0, 0, 0, 0, 0, 0⟩
  uptimeSecs := 0
  fetchOne _ := .ok ()
  prefetchHeaders oids := oids.map .present
  fetchObjects oids := oids.map .present

def plainSetup : Setup := ⟨none, none, 1, fun _ => 0, fun _ => .error "not asked for"⟩

def repoPath : String := "/srv/repo"
def mountPath : PathBuf := pathOf "/mnt"
def plainRepo : ActiveRepo := ⟨repoPath, pathOf repoPath, .noop, ∅⟩

def mountMain (fuse : Attempt Unit) : Call :=
  ⟨.mount repoPath "main" mountPath true false, plainHost fuse⟩

theorem plain_attach (fuse : Attempt Unit) :
    attachSource plainSetup (plainHost fuse) repoPath = .ok plainRepo := by
  have notUrl : looksLikeUrl repoPath = false := by decide +kernel
  unfold attachSource
  rw [notUrl]
  rfl

/-- A mount, its removal, and the mount again. -/
def remount : List Call :=
  [mountMain (.ok ()), ⟨.umount mountPath, plainHost (.ok ())⟩, mountMain (.ok ())]

theorem remount_result :
    (exec (record plainSetup) .start remount).map
        (fun log => (live log.past, log.state.issued)) = some ([mountPath], [1, 2]) := by
  decide +kernel

theorem remount_has_its_own_id :
    ∃ log, exec (record plainSetup) .start remount = some log ∧ live log.past = [mountPath] ∧
      log.state.issued = [1, 2] ∧ log.state.issued.Nodup := by
  obtain ⟨log, run, result⟩ := Option.map_eq_some_iff.mp remount_result
  have issued : log.state.issued = [1, 2] := congrArg Prod.snd result
  refine ⟨log, run, congrArg Prod.fst result, issued, ?_⟩
  exact (registry_invariant run).2.2.2.2.1 (by rw [issued]; decide)

def noFuse : Attempt Unit := .error (.error "fuse: device not found")

theorem noFuse_step {s : DaemonState} (unpoisoned : s.poisoned = false)
    (bound : s.active = none ∨ s.active = some plainRepo) :
    (dispatch plainSetup (mountMain noFuse).host (mountMain noFuse).request s).2 =
      { s with
        active := some plainRepo
        nextId := s.nextId + 1
        issued := s.issued ++ [s.nextId] } := by
  have taken : ∀ s : DaemonState, (mountOn (plainHost noFuse) "main" mountPath true false
      plainRepo s).2 = s.nextProjectionId.2 := by
    intro s
    rfl
  obtain unbound | active := bound
  · have opened : (dispatch plainSetup (mountMain noFuse).host (mountMain noFuse).request s) =
        mountOn (plainHost noFuse) "main" mountPath true false plainRepo
          { s with active := some plainRepo } := by
      simp only [dispatch, mountMain, handleMount, plainHost, unpoisoned, bindFirst, unbound]
      rw [← plainHost, plain_attach]
      rfl
    rw [opened, taken]
    rfl
  · have known : (dispatch plainSetup (mountMain noFuse).host (mountMain noFuse).request s) =
        mountOn (plainHost noFuse) "main" mountPath true false plainRepo s := by
      simp only [dispatch, mountMain, handleMount, plainHost, unpoisoned, bindFirst, active]
      rfl
    rw [known, taken, ← active]
    rfl

theorem noFuse_run (n : Nat) (log : Log) (unpoisoned : log.state.poisoned = false)
    (bound : log.state.active = none ∨ log.state.active = some plainRepo) :
    ∃ later, exec (record plainSetup) log (List.replicate n (mountMain noFuse)) = some later ∧
      later.state.issued.length = log.state.issued.length + n := by
  induction n generalizing log with
  | zero => exact ⟨log, rfl, rfl⟩
  | succ n ih =>
    have step := noFuse_step unpoisoned bound
    obtain ⟨later, run, count⟩ := ih ⟨_, log.past ++ [_]⟩
      ((congrArg DaemonState.poisoned step).trans unpoisoned)
      (.inr (congrArg DaemonState.active step))
    refine ⟨later, run, ?_⟩
    rw [count, congrArg DaemonState.issued step, List.length_append, List.length_singleton]
    omega

theorem projection_ids_wrap :
    ∃ calls log, exec (record plainSetup) .start calls = some log ∧ ¬ log.state.issued.Nodup := by
  obtain ⟨log, run, count⟩ := noFuse_run (2 ^ 64 + 1) .start rfl (.inl rfl)
  refine ⟨_, log, run, fun distinct => ?_⟩
  rw [(run_sound run).numbered.issued, count] at distinct
  have clash := List.inj_on_of_nodup_map distinct (x := 0) (y := 2 ^ 64)
    (List.mem_range.mpr (by omega)) (List.mem_range.mpr (by omega)) (by decide +kernel)
  omega

end ProjgitRegistry
